import JvmAssembly.Builder.Conversion
import JvmAssembly.Draft.Edit
import JvmAssembly.Op
import JvmAssembly.Pool.Basic

/-!
A method builder carries out assembler operations on a draft. Constants go into the pool of the
class, which all of its methods share. Receiver and parameters sit in the slots where a call puts
them.
-/
namespace JvmAssembly

structure Builder where
  draft : Draft
  /-- The class of the method. -/
  owner : BinaryName
  receiver : Option Local
  parameters : List Local

namespace Builder

/-- Declares parameters from a slot on, and answers the first slot after them. -/
def declare (done : Array Local) (slot : UInt16) :
    List FieldType → Draft → Except Fault ((List Local × UInt16) × Draft)
  | [], d => .ok ((done.toList, slot), d)
  | t :: ts, d =>
    let (v, d) := d.createLocal none t (some slot)
    match slotAfter slot t with
    | .ok next => declare (done.push v) next ts d
    | .error fault => .error fault

def create (id : Nat) (owner : BinaryName) (descriptor : MethodDescriptor) (isStatic : Bool) :
    Except Fault Builder := do
  let d := Draft.empty id
  let (receiver, slot, d) :=
    if isStatic then ((none : Option Local), (0 : UInt16), d)
    else
      let (v, d) := d.createLocal (some "this") (.object owner) (some 0)
      (some v, 1, d)
  let ((parameters, slot), d) ← declare #[] slot descriptor.parameters d
  return ⟨d.reserveSlots slot, owner, receiver, parameters⟩

def arguments (b : Builder) : List Local := b.receiver.toList ++ b.parameters

end Builder

/-- A builder at work, with the pool of its class. -/
structure Workspace where
  pool : Pool
  builder : Builder

/-- An operation on a workspace. What was done before a failure stays done. -/
abbrev Emit := ExceptT Fault (StateM Workspace)

inductive Made where
  | nothing
  | label (label : Label)
  | var (v : Local)

namespace Emit

def interning {α : Type} (x : Interning α) : Emit α := fun ws =>
  match ws with
  | ⟨pool, builder⟩ =>
    let (a, pool) := x pool
    (.ok a, ⟨pool, builder⟩)

def editing {α : Type} (e : Edit α) : Emit α := fun ws =>
  match ws with
  | ⟨pool, ⟨draft, owner, receiver, parameters⟩⟩ =>
    let (result, draft) := e draft
    (result, ⟨pool, ⟨draft, owner, receiver, parameters⟩⟩)

def fail {α : Type} (fault : Fault) : Emit α := fun ws => (.error fault, ws)

def lift {α : Type} (x : Except Fault α) : Emit α := fun ws => (x, ws)

def localInfo (v : Local) : Emit LocalInfo := fun ws => (ws.builder.draft.localInfo v, ws)

def tracksLocals : Emit Bool := fun ws => (.ok ws.builder.draft.tracksLocals, ws)

def owner : Emit BinaryName := fun ws => (.ok ws.builder.owner, ws)

def push (i : Instruction) : Emit Unit := editing (discard (Draft.push i))

def simple (op : Opcode) : Emit Unit := push (.simple op)

def branch (op : Opcode) (target : Label) : Emit Unit := push (.branch op target)

/-- A table of locals needs their names and types in the pool. -/
def internLocal (name : Option String) (type : FieldType) : Interning Unit :=
  match name with
  | none => pure ()
  | some name => do
    discard (Interning.text name)
    discard (Interning.text type.render)

def createLocal (name : Option String) (type : FieldType) (slot : Option UInt16) : Emit Made := do
  if ← tracksLocals then interning (internLocal name type)
  let v ← editing fun d =>
    let (v, d) := d.createLocal name type slot
    (.ok v, d)
  return .var v

def exceptionHandler (start stop entry : Label) (catchType : Option RefType) : Emit Unit := do
  let catchType ←
    match catchType with
    | some r => some <$> interning (Interning.cls r)
    | none => pure none
  editing (Draft.addHandler ⟨start, stop, entry, catchType⟩)

def lineNumber (line : UInt16) : Emit Unit := do
  discard (interning (Interning.text "LineNumberTable"))
  editing fun d => (.ok (), d.markLine line)

/-- The shortest instruction that loads a constant. -/
def loadInstruction : Value → Interning Instruction
  | .int n =>
    if -1 ≤ n && n ≤ 5 then
      return .simple (Opcode.iconst_0 + (n.toInt8).toUInt8)
    else if -128 ≤ n && n ≤ 127 then return .immediate Opcode.bipush n.toInt16
    else if -32768 ≤ n && n ≤ 32767 then return .immediate Opcode.sipush n.toInt16
    else return .constant Opcode.ldc (← Interning.constant (.integer n)) 1
  | .long n =>
    if n == 0 then return .simple Opcode.lconst_0
    else if n == 1 then return .simple Opcode.lconst_1
    else return .constant Opcode.ldc2_w (← Interning.constant (.long n)) 2
  | .float bits =>
    if bits == 0 then return .simple Opcode.fconst_0
    else if bits == 0x3f800000 then return .simple Opcode.fconst_1
    else if bits == 0x40000000 then return .simple Opcode.fconst_2
    else return .constant Opcode.ldc (← Interning.constant (.float bits)) 1
  | .double bits =>
    if bits == 0 then return .simple Opcode.dconst_0
    else if bits == 0x3ff0000000000000 then return .simple Opcode.dconst_1
    else return .constant Opcode.ldc2_w (← Interning.constant (.double bits)) 2
  | .string text => return .constant Opcode.ldc (← Interning.string text) 1
  | .cls r => return .constant Opcode.ldc (← Interning.cls r) 1

def loadConstant (value : Value) : Emit Unit := do
  push (← interning (loadInstruction value))

def increment (v : Local) (amount : Int16) : Emit Unit := do
  let info ← localInfo v
  if info.kind != .int then fail (.invalidOperand (.incrementOf info.type))
  else push (.increment v amount)

/-- Access to a field, which moves the stack by `adjustment` and by the receiver it takes. -/
def field (static dynamic : Opcode) (owner : Option BinaryName) (name : String) (type : FieldType)
    (isStatic : Bool) (adjustment : Int) : Emit Unit := do
  let owner := owner.getD (← Emit.owner)
  let entry ← interning (Interning.fieldRef owner name type)
  if isStatic then push (.constant static entry (Int16.ofInt adjustment))
  else push (.constant dynamic entry (Int16.ofInt (adjustment - 1)))

def invoke (kind : InvokeKind) (owner : Option RefType) (name : String)
    (descriptor : MethodDescriptor) (isInterface : Bool) : Emit Unit := do
  let slots := descriptor.parameterSlots (kind != .static)
  if slots > 255 then fail (.badDescriptor (.tooManySlots descriptor.render))
  else
    let owner := owner.getD (.object (← Emit.owner))
    let entry ← interning (Interning.methodRef owner name descriptor isInterface)
    push (.invoke kind.opcode entry (Int16.ofInt ((descriptor.returnWidth : Int) - slots))
      (UInt8.ofNat slots))

def classOperand (op : Opcode) (r : RefType) (adjustment : Int16) : Emit Unit := do
  push (.constant op (← interning (Interning.cls r)) adjustment)

def newArray : FieldType → Emit Unit
  | .base b => push (.immediate Opcode.newarray (Int16.ofNat b.arrayCode.toNat))
  | .ref r => classOperand Opcode.anewarray r 0

def newMultiArray (r : RefType) (dimensions : UInt8) : Emit Unit := do
  if dimensions = 0 ∨ dimensions.toNat > r.dimensions then
    fail (.invalidOperand (.dimensions dimensions r))
  else push (.multiNewArray (← interning (Interning.cls r)) dimensions)

def convert (source target : FieldType) (mode : ConvertMode) : Emit Unit :=
  match source, target with
  | .base s, .base t =>
    match mode with
    | .normal =>
      match Conversion.opcodes? s t with
      | some ops => ops.forM simple
      | none => fail (.invalidConversion source target)
    | _ =>
      match Conversion.bitsHelper? (mode == .rawBits) s t with
      | some (owner, name) =>
        invoke .static (some (.object owner)) name ⟨[source], some target⟩ false
      | none => fail (.invalidConversion source target)
  | _, _ => fail (.invalidConversion source target)

/-- Comparison of two values. A floating-point comparison that fails on NaN picks the variant
whose result makes the branch fail too. -/
def ifCompare (target : Label) (c : Comparison) (type : FieldType) : Emit Unit :=
  let onLess := c == .lt || c == .le
  match LocalKind.ofType type with
  | .int => branch c.intOpcode target
  | .reference =>
    match c.referenceOpcode with
    | .ok op => branch op target
    | .error fault => fail fault
  | .long => do
    simple Opcode.lcmp
    branch c.zeroOpcode target
  | .float => do
    simple (if onLess then Opcode.fcmpg else Opcode.fcmpl)
    branch c.zeroOpcode target
  | .double => do
    simple (if onLess then Opcode.dcmpg else Opcode.dcmpl)
    branch c.zeroOpcode target

def silently (x : Emit Unit) : Emit Made := do
  x
  return .nothing

def perform : Op Label Local → Emit Made
  | .createLocal name type => createLocal name type none
  | .createLocalAt name type slot => createLocal name type (some slot)
  | .createLabel => editing fun d =>
    let (l, d) := d.createLabel
    (.ok (.label l), d)
  | .placeLabel label => silently (editing (Draft.placeLabel label))
  | .exceptionHandler start stop entry catchType =>
    silently (exceptionHandler start stop entry catchType)
  | .lineNumber line => silently (lineNumber line)
  | .loadNull => silently (simple Opcode.aconst_null)
  | .loadConstant value => silently (loadConstant value)
  | .loadLocal v => silently do push (.load v (← localInfo v).kind)
  | .storeLocal v => silently do push (.store v (← localInfo v).kind false)
  | .increment v amount => silently (increment v amount)
  | .arrayLoad element => silently (simple element.arrayLoadOpcode)
  | .arrayStore element => silently (simple element.arrayStoreOpcode)
  | .getField owner name type isStatic =>
    silently (field Opcode.getstatic Opcode.getfield owner name type isStatic type.width)
  | .putField owner name type isStatic =>
    silently (field Opcode.putstatic Opcode.putfield owner name type isStatic (-(type.width : Int)))
  | .invoke kind owner name descriptor isInterface =>
    silently (invoke kind owner name descriptor isInterface)
  | .newObject name => silently (classOperand Opcode.new (.object name) 1)
  | .newArray element => silently (newArray element)
  | .newMultiArray r dimensions => silently (newMultiArray r dimensions)
  | .arrayLength => silently (simple Opcode.arraylength)
  | .throw => silently (simple Opcode.athrow)
  | .checkCast r => silently (classOperand Opcode.checkcast r 0)
  | .instanceOf r => silently (classOperand Opcode.instanceof r 0)
  | .math opcode =>
    silently (if opcode.isMath then simple opcode else fail (.invalidMathOpcode opcode))
  | .convert source target mode => silently (convert source target mode)
  | .stack op => silently (simple op.opcode)
  | .branch target => silently (branch Opcode.goto target)
  | .ifNull target isNull =>
    silently (branch (if isNull then Opcode.ifnull else Opcode.ifnonnull) target)
  | .ifZero target c => silently (branch c.zeroOpcode target)
  | .ifCompare target c type => silently (ifCompare target c type)
  | .switch default cases => silently (push (Instruction.switchOver default cases))
  | .jsr target => silently (branch Opcode.jsr target)
  | .ret v => silently do
    discard (localInfo v)
    push (.ret v)
  | .returnValue none => silently (simple Opcode.returnVoid)
  | .returnValue (some type) => silently (simple (LocalKind.ofType type).returnOpcode)
  | .monitorEnter => silently (simple Opcode.monitorenter)
  | .monitorExit => silently (simple Opcode.monitorexit)
  | .nop => silently (simple Opcode.nop)

def loadReceiver : Emit Made := fun ws =>
  match ws.builder.receiver with
  | some v => perform (.loadLocal v) ws
  | none => (.error (.invalidOperand .noReceiver), ws)

/-- From now on named locals go to a table; the pool gets what it needs. -/
def trackLocals : Emit Unit := do
  editing fun d => (.ok (), d.trackLocals true)
  let locals ← editing fun d => (.ok d.locals.toList, d)
  interning do
    discard (Interning.text "LocalVariableTable")
    locals.forM fun info => internLocal info.name info.type

end Emit

end JvmAssembly
