import JvmAssembly.Builder.Conversion
import JvmAssembly.ClassFile.Attribute
import JvmAssembly.Disassembly.Listing
import JvmAssembly.Op
import Std.Data.HashSet

/-!
The script of a method body: the assembler operations that would build it again. A script does not
depend on who carries it out. It names what it makes by number, and takes locals of the parameters
and a label for returns from outside.

Code refers to locals by slot. A slot stands for one local as long as it is used with one kind of
value; a use with another kind declares a new local. Return addresses keep their slots.
-/
namespace JvmAssembly

/-- Something from outside a script, or the `n`-th thing of its kind that the script makes. -/
inductive Handle (α : Type) where
  | given (a : α)
  | made (n : Nat)
deriving DecidableEq, Repr

/-- A method body with what it takes to read it. -/
structure Body where
  className : String
  descriptor : MethodDescriptor
  isStatic : Bool
  code : Bytes
  handlers : List HandlerRow
  lines : List LineRow

def Body.argumentTypes (b : Body) : Except Fault (List FieldType) :=
  if b.isStatic then .ok b.descriptor.parameters
  else (fun name => .object name :: b.descriptor.parameters) <$> BinaryName.ofText b.className

/-- A pool seen through the indices of a class file. -/
structure Constants where
  pool : Pool
  table : Pool.IndexTable

namespace Constants

def cls (k : Constants) (index : UInt16) : Except Fault RefType := do
  RefType.ofClassName (← k.pool.getClassName (← k.table.lookup index))

def value (k : Constants) (index : UInt16) : Except Fault Value := do
  match ← k.pool.get (← k.table.lookup index) with
  | .integer n => return .int n
  | .float bits => return .float bits
  | .long n => return .long n
  | .double bits => return .double bits
  | .string text => return .string (← k.pool.getText text)
  | .classInfo _ => return .cls (← k.cls index)
  | other => throw (.unexpectedConstant other .loadable)

def member (k : Constants) (index : UInt16) : Except Fault Pool.Member := do
  k.pool.getMember (← k.table.lookup index)

end Constants

/-- Locals by slot, each with the kind it is used as. -/
abbrev SlotMap (loc : Type) := Std.HashMap UInt16 (Handle loc × LocalKind)

namespace SlotMap

variable {loc : Type}

/-- Puts arguments into the slots of a call, if each has the kind that is expected. -/
def bind (typeOf : loc → Except Fault FieldType) (slot : UInt16) (slots : SlotMap loc) :
    List FieldType → List loc → Except Fault (SlotMap loc)
  | expected :: types, v :: vs =>
    match typeOf v with
    | .error fault => .error fault
    | .ok found =>
      let kind := LocalKind.ofType expected
      if LocalKind.ofType found = kind then
        match slotAfter slot expected with
        | .ok next => bind typeOf next (slots.insert slot (.given v, kind)) types vs
        | .error fault => .error fault
      else .error (.invalidOperand (.parameterType slot found expected))
  | _, _ => .ok slots

def find? (slots : SlotMap loc) (slot : UInt16) (kind : LocalKind) : Option (Handle loc) :=
  match slots[slot]? with
  | some (v, existing) => if existing = kind then some v else none
  | none => none

end SlotMap

structure Script (lab loc : Type) where
  ops : Array (Op (Handle lab) (Handle loc))
  /-- Addresses with a label, in the order in which the labels are made. -/
  addresses : Array Nat
  /-- Number of the label at an address. -/
  labels : Std.HashMap Nat Nat
  slots : SlotMap loc
  /-- Number of locals made. -/
  locals : Nat

/-- What is written before a failure stays written. -/
abbrev Writing (lab loc : Type) := ExceptT Fault (StateM (Script lab loc))

namespace Writing

variable {lab loc : Type}

def emit (op : Op (Handle lab) (Handle loc)) : Writing lab loc Unit := fun s =>
  match s with
  | ⟨ops, addresses, labels, slots, locals⟩ =>
    (.ok (), ⟨ops.push op, addresses, labels, slots, locals⟩)

def lift {α : Type} (x : Except Fault α) : Writing lab loc α := fun s => (x, s)

/-- The label of an address, which is made at its first use. -/
def labelAt (address : Nat) : Writing lab loc (Handle lab) := fun s =>
  match s.labels[address]? with
  | some n => (.ok (.made n), s)
  | none =>
    match s with
    | ⟨ops, addresses, labels, slots, locals⟩ =>
      let n := addresses.size
      (.ok (.made n),
        ⟨ops.push .createLabel, addresses.push address, labels.insert address n, slots, locals⟩)

/-- The local for a use of a slot as a kind of value, which is made if the slot does not stand for
one yet. -/
def localAt (fixed : List UInt16) (slot : UInt16) (kind : LocalKind) :
    Writing lab loc (Handle loc) := fun s =>
  match s.slots.find? slot kind with
  | some v => (.ok v, s)
  | none =>
    match s with
    | ⟨ops, addresses, labels, slots, locals⟩ =>
      let op := if slot ∈ fixed then .createLocalAt none kind.fieldType slot
        else .createLocal none kind.fieldType
      (.ok (.made locals),
        ⟨ops.push op, addresses, labels, slots.insert slot (.made locals, kind), locals + 1⟩)

def elementTypes : List FieldType :=
  [.int, .long, .float, .double, .object .object, .base .byte, .base .char, .base .short]

def conversions : List (FieldType × FieldType) :=
  [(.int, .long), (.int, .float), (.int, .double), (.long, .int), (.long, .float),
    (.long, .double), (.float, .int), (.float, .long), (.float, .double), (.double, .int),
    (.double, .long), (.double, .float), (.int, .base .byte), (.int, .base .char),
    (.int, .base .short)]

def shortValue? (opcode : Opcode) : Option Value :=
  if Opcode.iconst_m1 ≤ opcode ∧ opcode ≤ Opcode.iconst_5 then
    some (.int (Int32.ofInt ((opcode.toNat : Int) - 3)))
  else if opcode = Opcode.lconst_0 then some (.long 0)
  else if opcode = Opcode.lconst_1 then some (.long 1)
  else if opcode = Opcode.fconst_0 then some (.float 0)
  else if opcode = Opcode.fconst_1 then some (.float 0x3f800000)
  else if opcode = Opcode.fconst_2 then some (.float 0x40000000)
  else if opcode = Opcode.dconst_0 then some (.double 0)
  else if opcode = Opcode.dconst_1 then some (.double 0x3ff0000000000000)
  else none

/-- The operation of an opcode without operands, where `exit` takes the place of a return. -/
def simpleOp (exit : Option lab) (opcode : Opcode) : Op (Handle lab) (Handle loc) :=
  match shortValue? opcode with
  | some value => .loadConstant value
  | none =>
    if opcode = Opcode.nop then .nop
    else if opcode = Opcode.aconst_null then .loadNull
    else if Opcode.iaload ≤ opcode ∧ opcode ≤ Opcode.saload then
      .arrayLoad (elementTypes.getD (opcode - Opcode.iaload).toNat .int)
    else if Opcode.iastore ≤ opcode ∧ opcode ≤ Opcode.sastore then
      .arrayStore (elementTypes.getD (opcode - Opcode.iastore).toNat .int)
    else if Opcode.i2l ≤ opcode ∧ opcode ≤ Opcode.i2s then
      let (source, target) := conversions.getD (opcode - Opcode.i2l).toNat (.int, .int)
      .convert source target .normal
    else if Opcode.ireturn ≤ opcode ∧ opcode ≤ Opcode.returnVoid then
      match exit with
      | some label => .branch (.given label)
      | none => .returnValue ((LocalKind.ofReturnOpcode? opcode).map LocalKind.fieldType)
    else if opcode = Opcode.arraylength then .arrayLength
    else if opcode = Opcode.athrow then .throw
    else if opcode = Opcode.monitorenter then .monitorEnter
    else if opcode = Opcode.monitorexit then .monitorExit
    else
      match StackOp.ofOpcode? opcode with
      | some op => .stack op
      | none => .math opcode

/-- Access to a field or a call. A member of the class itself goes without an owner. -/
def memberOp (k : Constants) (className : String) (opcode : Opcode) (index : UInt16) :
    Except Fault (Op (Handle lab) (Handle loc)) := do
  let m ← k.member index
  let isOwn := m.owner == className
  match InvokeKind.ofOpcode? opcode with
  | some kind =>
    let descriptor ← MethodDescriptor.ofText m.descriptor
    let owner ← if isOwn then pure none else some <$> RefType.ofClassName m.owner
    return .invoke kind owner m.name descriptor m.isInterface
  | none =>
    let type ← FieldType.ofText m.descriptor
    let owner ← if isOwn then pure none else some <$> BinaryName.ofText m.owner
    let isStatic := opcode == Opcode.getstatic || opcode == Opcode.putstatic
    if opcode = Opcode.getfield ∨ opcode = Opcode.getstatic then
      return .getField owner m.name type isStatic
    else return .putField owner m.name type isStatic

def classOp (k : Constants) (opcode : Opcode) (index : UInt16) :
    Except Fault (Op (Handle lab) (Handle loc)) := do
  let r ← k.cls index
  if opcode = Opcode.anewarray then return .newArray (.ref r)
  else if opcode = Opcode.checkcast then return .checkCast r
  else if opcode = Opcode.instanceof then return .instanceOf r
  else
    match r with
    | .object name => return .newObject name
    | .array _ _ => throw (.invalidOperand (.classOperand opcode r))

def branchOp (opcode : Opcode) (target : Handle lab) :
    Except Fault (Op (Handle lab) (Handle loc)) :=
  if opcode = Opcode.goto ∨ opcode = Opcode.goto_w then .ok (.branch target)
  else if opcode = Opcode.jsr ∨ opcode = Opcode.jsr_w then .ok (.jsr target)
  else if opcode = Opcode.ifnull then .ok (.ifNull target true)
  else if opcode = Opcode.ifnonnull then .ok (.ifNull target false)
  else
    match Comparison.ofOpcode? opcode with
    | none => .error (.malformed (.unexpectedOpcode opcode))
    | some c =>
      if opcode ≤ Opcode.ifle then .ok (.ifZero target c)
      else if opcode < Opcode.if_acmpeq then .ok (.ifCompare target c .int)
      else .ok (.ifCompare target c (.object .object))

def instruction (k : Constants) (className : String) (fixed : List UInt16) (exit : Option lab) :
    Decoded → Writing lab loc Unit
  | .simple opcode => emit (simpleOp exit opcode)
  | .push value => emit (.loadConstant (.int value.toInt32))
  | .ldc index => do emit (.loadConstant (← lift (k.value index)))
  | .access kind slot true => do emit (.storeLocal (← localAt fixed slot kind))
  | .access kind slot false => do emit (.loadLocal (← localAt fixed slot kind))
  | .increment slot amount => do emit (.increment (← localAt fixed slot .int) amount)
  | .ret slot => do emit (.ret (← localAt fixed slot .reference))
  | .member opcode index => do emit (← lift (memberOp k className opcode index))
  | .cls opcode index => do emit (← lift (classOp k opcode index))
  | .newArray code =>
    match BaseType.ofArrayCode? code with
    | some b => emit (.newArray (.base b))
    | none => lift (.error (.malformed (.badArrayType code)))
  | .multiNewArray index dimensions => do
    emit (.newMultiArray (← lift (k.cls index)) dimensions)
  | .branch opcode target => do emit (← lift (branchOp opcode (← labelAt target)))
  | .switch default cases => do
    let default ← labelAt default
    let cases ← cases.mapM fun (key, target) => do return (key, ← labelAt target)
    emit (.switch default cases)
  | .unsupported => pure ()

/-- Labels at both ends of a guarded range and at the entry of its handler. -/
def handler (k : Constants) (row : HandlerRow) : Writing lab loc Unit := do
  let start ← labelAt row.startPc.toNat
  let stop ← labelAt row.endPc.toNat
  let entry ← labelAt row.handlerPc.toNat
  let catchType ← if row.catchType = 0 then pure none else some <$> lift (k.cls row.catchType)
  emit (.exceptionHandler start stop entry catchType)

def place (address : Nat) : Writing lab loc Unit := fun s =>
  match s.labels[address]? with
  | some n => emit (.placeLabel (.made n)) s
  | none => (.ok (), s)

def linesByAddress (rows : List LineRow) : Std.HashMap Nat (List UInt16) :=
  rows.foldr (fun row m => m.insert row.startPc.toNat (row.line :: m.getD row.startPc.toNat [])) ∅

/-- Writes instructions, each behind its label and its lines. Lines are written once. -/
def instructions (k : Constants) (className : String) (fixed : List UInt16) (exit : Option lab) :
    Std.HashMap Nat (List UInt16) → List Listed → Writing lab loc Unit
  | _, [] => return ()
  | lines, i :: rest => do
    place i.start
    (lines.getD i.start []).forM fun line => emit (.lineNumber line)
    instruction k className fixed exit i.instruction
    instructions k className fixed exit (lines.erase i.start) rest

/-- Writes the script of a listing: labels for every target, handlers, then the instructions. -/
def listing (k : Constants) (b : Body) (exit : Option lab) (l : Listing) :
    Writing lab loc Unit := do
  l.instructions.forM fun i => i.instruction.targets.forM fun t => discard (labelAt t)
  b.handlers.forM (handler k)
  instructions k b.className l.returnSlots exit (linesByAddress b.lines) l.instructions
  place (addressOf b.code.length)

end Writing

structure Disassembly (lab loc : Type) where
  ops : List (Op (Handle lab) (Handle loc))
  /-- Why the script ends early. -/
  fault : Option Fault
  /-- Instructions that are missing from the script. -/
  reports : List Report
  /-- Targets that are no addresses of instructions. -/
  stray : List Nat

/-- Targets at which neither an instruction starts nor the code ends. -/
def Listing.strayTargets (l : Listing) (size : Nat) (addresses : List Nat) : List Nat :=
  let starts : Std.HashSet Nat := l.instructions.foldl (fun s i => s.insert i.start) {size}
  addresses.filter fun a => !starts.contains a

/-- Disassembles a body for given arguments. With an `exit`, returns become jumps to it. -/
def Body.disassemble {lab loc : Type} (b : Body) (k : Constants)
    (typeOf : loc → Except Fault FieldType) (arguments : List loc) (exit : Option lab) :
    Disassembly lab loc :=
  let refused (fault : Fault) : Disassembly lab loc := ⟨[], some fault, [], []⟩
  match b.argumentTypes with
  | .error fault => refused fault
  | .ok types =>
    if types.length ≠ arguments.length then
      refused (.parameterMismatch types.length arguments.length)
    else
      match SlotMap.bind typeOf 0 ∅ types arguments with
      | .error fault => refused fault
      | .ok slots =>
        let l := Listing.decode b.code
        match Writing.listing k b exit l ⟨#[], #[], ∅, slots, 0⟩ with
        | (.ok (), s) =>
          ⟨s.ops.toList, none, l.reports,
            l.strayTargets (addressOf b.code.length) s.addresses.toList⟩
        | (.error fault, s) => ⟨s.ops.toList, some fault, l.reports, []⟩

end JvmAssembly
