import Mathlib
import JvmAssembly.Proofs.Builder.Emission
import JvmAssembly.Proofs.Pool.Recovery

/-!
Where the instructions of a builder come from. Without subroutines, each of them follows from what
its operation was given: its entry is where the pool holds that constant, and its effect on the
stack is the one of that member, class or value. This stays so while the pool grows.
-/
namespace JvmAssembly

/-- The opcode that loads a value from the pool. -/
def Value.opcode : Value → Opcode
  | .long _ | .double _ => Opcode.ldc2_w
  | _ => Opcode.ldc

def Value.growth : Value → Int16
  | .long _ | .double _ => 2
  | _ => 1

namespace Instruction

/-- Access to a field by the opcode for static or for other fields, which take a receiver. -/
def accessField (static dynamic : Opcode) (isStatic : Bool) (adjustment : Int)
    (entry : ConstantRef) : Instruction :=
  if isStatic then .constant static entry (Int16.ofInt adjustment)
  else .constant dynamic entry (Int16.ofInt (adjustment - 1))

/-- A call of a method with a descriptor. -/
def call (kind : InvokeKind) (descriptor : MethodDescriptor) (entry : ConstantRef) : Instruction :=
  let slots := descriptor.parameterSlots (kind != .static)
  .invoke kind.opcode entry (Int16.ofInt ((descriptor.returnWidth : Int) - slots))
    (UInt8.ofNat slots)

/-- Instructions whose operands the pool and the locals account for. -/
inductive Known (pool : Pool) (locals : Array LocalInfo) : Instruction → Prop
  | label : Known pool locals .label
  | simple (op : Opcode) : Known pool locals (.simple op)
  | immediate {op : Opcode} {n : Int16} (family : op = Opcode.bipush ∨ op = Opcode.sipush)
      (load : Emit.loadInstruction (.int n.toInt32) = pure (.immediate op n)) :
      Known pool locals (.immediate op n)
  | value {v : Value} {entry : ConstantRef}
      (load : Emit.loadInstruction v =
        do return .constant v.opcode (← Interning.value v) v.growth)
      (held : pool.HasValue v entry) : Known pool locals (.constant v.opcode entry v.growth)
  | newArray (b : BaseType) :
      Known pool locals (.immediate Opcode.newarray (Int16.ofNat b.arrayCode.toNat))
  | getField {owner : BinaryName} {name : String} {type : FieldType} {entry : ConstantRef}
      (held : pool.HasField owner.text name type.render entry) (isStatic : Bool) :
      Known pool locals
        (accessField Opcode.getstatic Opcode.getfield isStatic type.width entry)
  | putField {owner : BinaryName} {name : String} {type : FieldType} {entry : ConstantRef}
      (held : pool.HasField owner.text name type.render entry) (isStatic : Bool) :
      Known pool locals
        (accessField Opcode.putstatic Opcode.putfield isStatic (-(type.width : Int)) entry)
  | invoke {kind : InvokeKind} {owner : RefType} {name : String} {descriptor : MethodDescriptor}
      {isInterface : Bool} {entry : ConstantRef}
      (narrow : descriptor.parameterSlots (kind != .static) ≤ 255)
      (held : pool.HasMethod owner.className name descriptor.render isInterface entry) :
      Known pool locals (call kind descriptor entry)
  | newObject {name : BinaryName} {entry : ConstantRef} (held : pool.HasClass name.text entry) :
      Known pool locals (.constant Opcode.new entry 1)
  | cls {op : Opcode} {r : RefType} {entry : ConstantRef}
      (one : op = Opcode.anewarray ∨ op = Opcode.checkcast ∨ op = Opcode.instanceof)
      (held : pool.HasClass r.className entry) : Known pool locals (.constant op entry 0)
  | multiNewArray {r : RefType} {dimensions : UInt8} {entry : ConstantRef}
      (fits : ¬(dimensions = 0 ∨ dimensions.toNat > r.dimensions))
      (held : pool.HasClass r.className entry) : Known pool locals (.multiNewArray entry dimensions)
  | load (v : Local) (kind : LocalKind) : Known pool locals (.load v kind)
  | store (v : Local) (kind : LocalKind) (discard : Bool) :
      Known pool locals (.store v kind discard)
  | increment {v : Local} {info : LocalInfo} (amount : Int16)
      (stored : locals[v.index]? = some info) (int : info.kind = .int) :
      Known pool locals (.increment v amount)
  | branch {op : Opcode} (target : Label) (near : Format.ofOpcode op = .branch)
      (stays : op ≠ Opcode.jsr) : Known pool locals (.branch op target)
  | switch (default : Label) (cases : List (Int32 × Label)) :
      Known pool locals (.switch default cases (prefersTable cases))

variable {pool pool' : Pool} {locals : Array LocalInfo} {x : Instruction}

theorem Known.mono (known : x.Known pool locals) (within : pool.Within pool') :
    x.Known pool' locals := by
  cases known with
  | label => exact .label
  | simple op => exact .simple op
  | immediate family load => exact .immediate family load
  | value load held => exact .value load ((Interning.finds_value _).kept within held)
  | newArray b => exact .newArray b
  | getField held isStatic =>
      exact .getField ((Interning.finds_fieldRef _ _ _).kept within held) isStatic
  | putField held isStatic =>
      exact .putField ((Interning.finds_fieldRef _ _ _).kept within held) isStatic
  | invoke narrow held => exact .invoke narrow ((Interning.finds_methodRef _ _ _ _).kept within held)
  | newObject held => exact .newObject ((Interning.finds_className _).kept within held)
  | cls one held => exact .cls one ((Interning.finds_cls _).kept within held)
  | multiNewArray fits held => exact .multiNewArray fits ((Interning.finds_cls _).kept within held)
  | load v kind => exact .load v kind
  | store v kind discard => exact .store v kind discard
  | increment amount stored int => exact .increment amount stored int
  | branch target near stays => exact .branch target near stays
  | switch default cases => exact .switch default cases

theorem Known.marked (known : x.Known pool locals) (liveness : Liveness) (i : Nat) :
    (x.marked liveness i).Known pool locals := by
  cases x with
  | store v kind discard => exact .store v kind _
  | _ => exact known

end Instruction

theorem Preserves.silently {I : Workspace → Prop} {x : Emit Unit} (h : Preserves I x) :
    Preserves I (Emit.silently x) :=
  h.bind fun _ => preserves_of_eq fun _ => rfl

namespace Emit

open Interning Instruction

/-- A value is loaded by an opcode of its own, as a number in the code, or from the pool. -/
theorem loadInstruction_cases (v : Value) :
    (∃ op, loadInstruction v = pure (.simple op)) ∨
      (∃ op n, (op = Opcode.bipush ∨ op = Opcode.sipush) ∧ v = .int (Int16.toInt32 n) ∧
        loadInstruction v = pure (.immediate op n)) ∨
      loadInstruction v = do return .constant v.opcode (← value v) v.growth := by
  have back : ∀ n : Int32, -32768 ≤ n.toInt → n.toInt ≤ 32767 → n.toInt16.toInt32 = n := by
    intro n low high
    apply Int32.toInt_inj.mp
    rw [Int16.toInt_toInt32, Int32.toInt_toInt16, Int.bmod_eq_of_le (by omega) (by omega)]
  cases v with
  | int n =>
      have small : ∀ (a b : Int32), (decide (a ≤ n) && decide (n ≤ b)) = true →
          a.toInt ≤ n.toInt ∧ n.toInt ≤ b.toInt := by
        intro a b both
        rw [Bool.and_eq_true, decide_eq_true_eq, decide_eq_true_eq] at both
        exact ⟨Int32.le_iff_toInt_le.mp both.1, Int32.le_iff_toInt_le.mp both.2⟩
      rw [loadInstruction]
      split
      · exact .inl ⟨_, rfl⟩
      · split
        · rename_i byte
          obtain ⟨low, high⟩ := small _ _ byte
          refine .inr (.inl ⟨_, _, .inl rfl, ?_, rfl⟩)
          rw [back n (le_trans (by decide) low) (le_trans high (by decide))]
        · split
          · rename_i short
            obtain ⟨low, high⟩ := small _ _ short
            exact .inr (.inl ⟨_, _, .inr rfl, by rw [back n low high], rfl⟩)
          · exact .inr (.inr rfl)
  | long n | float bits | double bits =>
      rw [loadInstruction]
      repeat' split
      all_goals first | exact .inl ⟨_, rfl⟩ | exact .inr (.inr rfl)
  | string s => exact .inr (.inr rfl)
  | cls r => exact .inr (.inr rfl)

/-- A workspace without handlers whose instructions are all accounted for, with the locals of a
draft and the slots it reserves. -/
structure Regular (base : Draft) (ws : Workspace) : Prop where
  coherent : ws.pool.Coherent
  locals : ws.builder.draft.locals = base.locals
  reserved : ws.builder.draft.reservedSlots = base.reservedSlots
  handlers : ws.builder.draft.handlers = #[]
  known (n : NodeId) : (ws.builder.draft.instructionAt n).Known ws.pool base.locals

theorem Regular.interned {base : Draft} {ws : Workspace} (regular : Regular base ws) {pool : Pool}
    (steps : Relation.ReflTransGen Pool.Interned ws.pool pool) :
    Regular base { ws with pool } where
  coherent := Pool.coherent_of_interned regular.coherent steps
  locals := regular.locals
  reserved := regular.reserved
  handlers := regular.handlers
  known n := (regular.known n).mono (Pool.within_of_interned steps)

variable {α β : Type} {base : Draft} {P : Workspace → Prop}

/-- Leaves a regular workspace whatever comes of it. -/
abbrev Steady (base : Draft) (x : Emit α) : Prop := Preserves (Regular base) x

/-- Whatever is interned is held from then on. -/
theorem regular_interning {x : Interning α} {Holds : Pool → α → Prop} (finds : Finds x Holds) :
    Maintains (Regular base) P (interning x) fun a ws => Holds ws.pool a := by
  rintro ⟨pool, builder⟩ regular -
  refine ⟨regular.interned (finds.interns pool), ?_⟩
  rintro _ ⟨⟩
  exact finds.made pool

theorem regular_push {i : Instruction} :
    Maintains (Regular base) (fun ws => i.Known ws.pool base.locals) (push i) fun _ _ => True := by
  rintro ⟨pool, draft, owner, receiver, parameters⟩ regular new
  refine ⟨?_, fun _ _ => trivial⟩
  have same : (Emit.push i ⟨pool, draft, owner, receiver, parameters⟩).2 =
      ⟨pool, (Draft.push i draft).2, owner, receiver, parameters⟩ := by
    simp only [Emit.push, Emit.editing, run_discard]
  rw [same]
  unfold Draft.push
  split
  · exact regular
  · refine ⟨regular.coherent, regular.locals, regular.reserved, regular.handlers, fun n => ?_⟩
    have moved : ((draft.allocate i).placeLast draft.nodes.size).instructionAt n =
        (draft.allocate i).instructionAt n := Draft.instructionAt_rearrange _ _ true _ n
    change Known pool base.locals
      (((draft.allocate i).placeLast draft.nodes.size).instructionAt n)
    rw [moved]
    by_cases last : n = draft.nodes.size
    · rw [last, Draft.instructionAt_allocate_size]
      exact new
    · rw [Draft.instructionAt_allocate draft i last]
      exact regular.known n

theorem steady_fail (fault : Fault) : Steady base (fail fault : Emit α) :=
  preserves_of_eq fun _ => rfl

theorem steady_push {i : Instruction} (known : ∀ pool, i.Known pool base.locals) :
    Steady base (push i) :=
  fun ws regular _ => regular_push ws regular (known ws.pool)

theorem steady_simple (op : Opcode) : Steady base (simple op) := steady_push fun _ => .simple op

theorem steady_branch {op : Opcode} (near : Format.ofOpcode op = .branch) (stays : op ≠ Opcode.jsr)
    (target : Label) : Steady base (branch op target) :=
  steady_push fun _ => .branch target near stays

/-- An instruction is built around what was interned for it. -/
theorem steady_interned {x : Interning α} {Holds : Pool → α → Prop} (finds : Finds x Holds)
    {f : α → Instruction} (known : ∀ pool a, Holds pool a → (f a).Known pool base.locals) :
    Steady base (do push (f (← interning x))) :=
  Maintains.bind (regular_interning finds) fun a ws regular held =>
    regular_push ws regular (known ws.pool a held)

/-- All that is new in a draft are labels. -/
structure AddsLabels (d d' : Draft) : Prop where
  locals : d'.locals = d.locals
  reserved : d'.reservedSlots = d.reservedSlots
  handlers : d'.handlers = d.handlers
  labels (n : NodeId) : d'.instructionAt n = d.instructionAt n ∨ d'.instructionAt n = .label

theorem steady_editing {e : Edit α} (adds : ∀ d, AddsLabels d (e d).2) :
    Steady base (editing e) := by
  rintro ⟨pool, draft, owner, receiver, parameters⟩ regular -
  have new := adds draft
  refine ⟨⟨regular.coherent, new.locals.trans regular.locals,
    new.reserved.trans regular.reserved, new.handlers.trans regular.handlers, fun n => ?_⟩,
    fun _ _ => trivial⟩
  rcases new.labels n with same | label
  · exact same ▸ regular.known n
  · exact label ▸ .label

theorem addsLabels_allocate (d : Draft) : AddsLabels d (d.allocate .label) where
  locals := rfl
  reserved := rfl
  handlers := rfl
  labels n := by
    by_cases last : n = d.nodes.size
    · exact .inr (last ▸ d.instructionAt_allocate_size .label)
    · exact .inl (d.instructionAt_allocate .label last)

theorem addsLabels_placeLabel (label : Label) (d : Draft) :
    AddsLabels d (Draft.placeLabel label d).2 := by
  unfold Draft.placeLabel
  split
  · exact ⟨rfl, rfl, rfl, fun _ => .inl rfl⟩
  · exact ⟨rfl, rfl, rfl, fun n => .inl (d.instructionAt_rearrange label.node true _ n)⟩

theorem addsLabels_markLine (line : UInt16) (d : Draft) : AddsLabels d (d.markLine line) where
  locals := rfl
  reserved := rfl
  handlers := rfl
  labels n := by
    have moved : (d.markLine line).instructionAt n = (d.allocate .label).instructionAt n :=
      (d.allocate .label).instructionAt_rearrange d.nodes.size true
        (d.order.push d.nodes.size) n
    rw [moved]
    exact (addsLabels_allocate d).labels n

theorem steady_lineNumber (line : UInt16) : Steady base (lineNumber line) := by
  refine Preserves.bind (fun ws regular _ => ?_) fun _ => steady_editing (addsLabels_markLine line)
  have interned := regular_interning (P := fun _ => True) (finds_text "LineNumberTable") ws regular
    trivial
  rw [run_discard]
  exact ⟨interned.1, fun _ _ => trivial⟩

theorem steady_loadConstant (v : Value) : Steady base (loadConstant v) := by
  rcases loadInstruction_cases v with ⟨op, load⟩ | ⟨op, n, family, rfl, load⟩ | load
  · rw [loadConstant, load]
    refine steady_interned (finds_pure _) ?_
    rintro pool _ rfl
    exact .simple op
  · have short := load
    rw [loadConstant, load]
    refine steady_interned (finds_pure _) ?_
    rintro pool _ rfl
    exact .immediate family short
  · have long := load
    rw [loadConstant, load]
    refine steady_interned ((finds_value v).bind fun _ => finds_pure _) ?_
    rintro pool _ ⟨entry, held, rfl⟩
    exact .value long held

theorem steady_localInfo {f : LocalInfo → Emit α} (v : Local)
    (h : ∀ info, base.locals[v.index]? = some info → Steady base (f info)) :
    Steady base (do f (← localInfo v)) := by
  refine Maintains.bind (Q := fun info _ => base.locals[v.index]? = some info) ?_ fun info ws regular
    found => h info found ws regular trivial
  intro ws regular _
  refine ⟨regular, fun info found => ?_⟩
  rw [← regular.locals]
  exact (Draft.localInfo_eq_ok.mp found).2

theorem steady_increment (v : Local) (amount : Int16) : Steady base (increment v amount) := by
  refine steady_localInfo v fun info found => ?_
  split
  · exact steady_fail _
  · rename_i int
    rw [bne_iff_ne, ne_eq, not_not] at int
    exact steady_push fun _ => .increment amount found int

theorem steady_field {static dynamic : Opcode} {owner : Option BinaryName} {name : String}
    {type : FieldType} {isStatic : Bool} {adjustment : Int}
    (known : ∀ {pool : Pool} {owner : BinaryName} {entry : ConstantRef},
      pool.HasField owner.text name type.render entry →
        (accessField static dynamic isStatic adjustment entry).Known pool base.locals) :
    Steady base (field static dynamic owner name type isStatic adjustment) := by
  refine Preserves.bind (preserves_of_eq fun _ => rfl) fun self => ?_
  refine Maintains.bind (regular_interning (finds_fieldRef _ _ _)) fun entry ws regular held => ?_
  have new := known held
  unfold accessField at new
  split
  · rw [if_pos ‹_›] at new
    exact regular_push ws regular new
  · rw [if_neg ‹_›] at new
    exact regular_push ws regular new

theorem steady_invoke (kind : InvokeKind) (owner : Option RefType) (name : String)
    (descriptor : MethodDescriptor) (isInterface : Bool) :
    Steady base (invoke kind owner name descriptor isInterface) := by
  unfold invoke
  dsimp only
  split
  · exact steady_fail _
  · rename_i narrow
    refine Preserves.bind (preserves_of_eq fun _ => rfl) fun self => ?_
    exact steady_interned (finds_methodRef _ _ _ _) fun _ entry held =>
      Known.invoke (Nat.le_of_not_lt narrow) held

theorem steady_convert (source target : FieldType) (mode : ConvertMode) :
    Steady base (convert source target mode) := by
  unfold convert
  split
  · split
    · split
      · exact preserves_forM steady_simple
      · exact steady_fail _
    · split
      · exact steady_invoke _ _ _ _ _
      · exact steady_fail _
  · exact steady_fail _

theorem steady_ifCompare (target : Label) (c : Comparison) (type : FieldType) :
    Steady base (ifCompare target c type) := by
  have zero : Steady base (branch c.zeroOpcode target) :=
    steady_branch (branch_zero c) (by cases c <;> decide) target
  unfold ifCompare
  dsimp only
  split
  · exact steady_branch (branch_int c) (by cases c <;> decide) target
  · split
    · rename_i op found
      exact steady_branch (branch_reference found) (by cases c <;> cases found <;> decide) target
    · exact steady_fail _
  · exact (steady_simple _).bind fun _ => zero
  · exact (steady_simple _).bind fun _ => zero
  · exact (steady_simple _).bind fun _ => zero

theorem steady_classOperand {op : Opcode}
    (one : op = Opcode.anewarray ∨ op = Opcode.checkcast ∨ op = Opcode.instanceof) (r : RefType) :
    Steady base (classOperand op r 0) :=
  steady_interned (finds_cls r) fun _ _ held => .cls one held

end Emit

/-- Operations that need neither locals of their own nor handlers nor subroutines. -/
def Op.isPlain {lab loc : Type} : Op lab loc → Bool
  | .createLocal _ _ | .createLocalAt _ _ _ | .exceptionHandler _ _ _ _ | .jsr _ | .ret _ => false
  | _ => true

namespace Emit

open Instruction Interning

variable {base : Draft}

theorem steady_perform {op : Op Label Local} (plain : op.isPlain = true) :
    Steady base (perform op) := by
  cases op with
  | createLocal | createLocalAt | exceptionHandler | jsr | ret => cases plain
  | createLabel => exact steady_editing addsLabels_allocate
  | placeLabel label => exact (steady_editing (addsLabels_placeLabel label)).silently
  | lineNumber line => exact (steady_lineNumber line).silently
  | loadConstant v => exact (steady_loadConstant v).silently
  | loadLocal v =>
      exact (steady_localInfo v fun info _ => steady_push fun _ => .load v info.kind).silently
  | storeLocal v =>
      exact (steady_localInfo v fun info _ => steady_push fun _ => .store v info.kind false).silently
  | increment v amount => exact (steady_increment v amount).silently
  | getField owner name type isStatic =>
      exact (steady_field fun held => .getField held isStatic).silently
  | putField owner name type isStatic =>
      exact (steady_field fun held => .putField held isStatic).silently
  | invoke kind owner name descriptor isInterface =>
      exact (steady_invoke kind owner name descriptor isInterface).silently
  | newObject name =>
      exact (steady_interned (finds_cls (.object name)) fun _ _ held => .newObject held).silently
  | newArray element =>
      cases element with
      | base b => exact (steady_push fun _ => .newArray b).silently
      | ref r => exact (steady_classOperand (.inl rfl) r).silently
  | newMultiArray r dimensions =>
      refine Preserves.silently ?_
      unfold newMultiArray
      split
      · exact steady_fail _
      · rename_i fits
        exact steady_interned (finds_cls r) fun _ _ held => .multiNewArray fits held
  | checkCast r => exact (steady_classOperand (.inr (.inl rfl)) r).silently
  | instanceOf r => exact (steady_classOperand (.inr (.inr rfl)) r).silently
  | math opcode =>
      refine Preserves.silently ?_
      split
      · exact steady_simple _
      · exact steady_fail _
  | convert source target mode => exact (steady_convert source target mode).silently
  | branch target => exact (steady_branch (by decide) (by decide) target).silently
  | ifNull target isNull =>
      exact (steady_branch (by cases isNull <;> decide) (by cases isNull <;> decide)
        target).silently
  | ifZero target c =>
      exact (steady_branch (branch_zero c) (by cases c <;> decide) target).silently
  | ifCompare target c type => exact (steady_ifCompare target c type).silently
  | switch default cases =>
      exact (steady_push fun _ => .switch default (sortCases cases)).silently
  | returnValue type => cases type <;> exact (steady_simple _).silently
  | _ => exact (steady_simple _).silently

end Emit

end JvmAssembly
