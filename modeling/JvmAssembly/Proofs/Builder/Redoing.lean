import Mathlib
import JvmAssembly.Builder.Replay
import JvmAssembly.Proofs.Builder.Origins
import JvmAssembly.Proofs.Disassembly.Renewal
import JvmAssembly.Proofs.Disassembly.Replay

/-!
Each instruction is done again. The operation that a script has for an instruction of a builder
emits the instruction itself, in terms of the labels and locals of the script, and needs no constant
that the pool does not hold.
-/
namespace JvmAssembly

section Decoding

/-- Whatever a scan answers has the property. -/
def Scan.Answers {α : Type} (P : α → Prop) (s : Scan α) : Prop :=
  ∀ c a c', s c = some (a, c') → P a

namespace Scan.Answers

variable {α β : Type} {P : β → Prop}

theorem pure {b : β} (h : P b) : Answers P (Pure.pure b) := by
  rintro c a c' ⟨⟩
  exact h

theorem bind {s : Scan α} {k : α → Scan β} (h : ∀ a, Answers P (k a)) :
    Answers P (s >>= k) := by
  intro c b c' found
  obtain ⟨⟨a, m⟩, -, found⟩ := Option.bind_eq_some_iff.mp found
  exact h a m b c' found

end Scan.Answers

/-- The opcode of a decoded member or class instruction is one of such an instruction. -/
def Decoded.Formed : Decoded → Prop
  | .member op _ => Format.ofOpcode op = .member ∨ Format.ofOpcode op = .interface
  | .cls op _ => Format.ofOpcode op = .cls
  | _ => True

open Scan.Answers in
theorem Decoded.formed_operands (address : Nat) (op : Opcode) :
    (operands address op).Answers Formed := by
  rw [Format.operands_ofOpcode]
  cases format : Format.ofOpcode op with
  | bytePush | shortPush | byteLoad | shortLoad | ret | newArray =>
      exact bind fun _ => pure trivial
  | increment | multiNewArray => exact bind fun _ => bind fun _ => pure trivial
  | access =>
      change (accessOperand op).Answers Formed
      unfold accessOperand
      dsimp only
      split
      · exact pure trivial
      · exact bind fun _ => pure trivial
      · exact pure trivial
  | wide =>
      refine bind fun opcode => bind fun slot => ?_
      split
      · exact bind fun _ => pure trivial
      · split
        · exact pure trivial
        · split
          · split <;> exact pure trivial
          · exact pure trivial
  | branch | farBranch => exact bind fun _ => bind fun _ => pure trivial
  | table =>
      iterate 6 refine bind fun _ => ?_
      exact pure trivial
  | lookup =>
      iterate 5 refine bind fun _ => ?_
      exact pure trivial
  | member => exact bind fun _ => pure (.inl format)
  | interface => exact bind fun _ => bind fun _ => pure (.inr format)
  | dynamic => exact bind fun _ => pure trivial
  | cls => exact bind fun _ => pure format
  | plain | unknown => exact pure trivial

theorem Listing.formed_decodeFrom {code : Array UInt8} {instructions : Array Listed}
    {reports : Array Report} {c : Cursor} (before : ∀ x ∈ instructions, x.instruction.Formed) :
    ∀ x ∈ (decodeFrom code instructions reports c).instructions, x.instruction.Formed := by
  fun_induction decodeFrom code instructions reports c with
  | case1 => simpa using before
  | case2 => simpa using before
  | case3 instructions reports c more address report i c' read reports' ih =>
      refine ih fun x member => ?_
      rcases Array.mem_push.mp member with old | rfl
      · exact before x old
      · exact Scan.Answers.bind (fun op => Decoded.formed_operands c.position op) c i c' read

theorem Listing.formed_decode (code : Bytes) :
    ∀ x ∈ (decode code).instructions, x.instruction.Formed :=
  formed_decodeFrom fun x member => absurd member (Array.not_mem_empty x)

end Decoding

namespace Emit

open Writing

variable {lab loc : Type}

theorem loadConstant_pure {v : Value} {x : Instruction} (load : loadInstruction v = pure x) :
    loadConstant v = push x := by
  rw [loadConstant, load]
  rfl

theorem loadInstruction_shortValue {op : Opcode} {v : Value} (short : shortValue? op = some v) :
    loadInstruction v = pure (.simple op) := by
  unfold shortValue? at short
  split_ifs at short with int
  · cases short
    obtain ⟨low, high⟩ := int
    rw [UInt8.le_iff_toNat_le] at low high
    rw [← UInt8.ofNat_toNat (x := op)]
    generalize op.toNat = n at low high
    have low' : 2 ≤ n := low
    have high' : n ≤ 8 := high
    interval_cases n <;> rfl
  all_goals
    cases short
    subst op
    rfl

section Opcodes

/-- The operations for opcodes without operands, range by range. -/
theorem simple_families (op : Opcode) :
    (Opcode.iaload ≤ op ∧ op ≤ Opcode.saload →
      (elementTypes.getD (op - Opcode.iaload).toNat .int).arrayLoadOpcode = op) ∧
    (Opcode.iastore ≤ op ∧ op ≤ Opcode.sastore →
      (elementTypes.getD (op - Opcode.iastore).toNat .int).arrayStoreOpcode = op) ∧
    (Opcode.i2l ≤ op ∧ op ≤ Opcode.i2s → ∃ source ∈ BaseType.all, ∃ target ∈ BaseType.all,
      conversions.getD (op - Opcode.i2l).toNat (.int, .int) = (.base source, .base target) ∧
        Conversion.opcodes? source target = some [op]) ∧
    (Opcode.ireturn ≤ op ∧ op ≤ Opcode.returnVoid →
      (LocalKind.ofReturnOpcode? op).elim Opcode.returnVoid
        (fun kind => (LocalKind.ofType kind.fieldType).returnOpcode) = op) ∧
    (Format.ofOpcode op = .plain ∧ shortValue? op = none ∧ StackOp.ofOpcode? op = none ∧
        op ≠ Opcode.nop ∧ op ≠ Opcode.aconst_null →
      (Opcode.iaload ≤ op ∧ op ≤ Opcode.saload) ∨ (Opcode.iastore ≤ op ∧ op ≤ Opcode.sastore) ∨
        (Opcode.i2l ≤ op ∧ op ≤ Opcode.i2s) ∨ (Opcode.ireturn ≤ op ∧ op ≤ Opcode.returnVoid) ∨
        op = Opcode.arraylength ∨ op = Opcode.athrow ∨ op = Opcode.monitorenter ∨
        op = Opcode.monitorexit ∨ op.isMath = true) := by
  revert op
  exact Opcode.forall_of_decide (by decide +kernel)

theorem arrayLoadOpcode_elementTypes {op : Opcode}
    (range : Opcode.iaload ≤ op ∧ op ≤ Opcode.saload) :
    (elementTypes.getD (op - Opcode.iaload).toNat .int).arrayLoadOpcode = op :=
  (simple_families op).1 range

theorem arrayStoreOpcode_elementTypes {op : Opcode}
    (range : Opcode.iastore ≤ op ∧ op ≤ Opcode.sastore) :
    (elementTypes.getD (op - Opcode.iastore).toNat .int).arrayStoreOpcode = op :=
  (simple_families op).2.1 range

/-- Each conversion instruction converts between two base types on its own. -/
theorem convert_conversions {op : Opcode} (range : Opcode.i2l ≤ op ∧ op ≤ Opcode.i2s) :
    ∃ source target, conversions.getD (op - Opcode.i2l).toNat (.int, .int) =
        (.base source, .base target) ∧ Conversion.opcodes? source target = some [op] := by
  obtain ⟨source, -, target, -, found⟩ := (simple_families op).2.2.1 range
  exact ⟨source, target, found⟩

theorem returnOpcode_ofReturnOpcode? {op : Opcode}
    (range : Opcode.ireturn ≤ op ∧ op ≤ Opcode.returnVoid) :
    (LocalKind.ofReturnOpcode? op).elim Opcode.returnVoid
      (fun kind => (LocalKind.ofType kind.fieldType).returnOpcode) = op :=
  (simple_families op).2.2.2.1 range

theorem opcode_ofOpcode? {op : Opcode} {s : StackOp} (found : StackOp.ofOpcode? op = some s) :
    s.opcode = op :=
  beq_iff_eq.mp (List.find?_some (p := fun s : StackOp => s.opcode == op) found)

/-- An opcode without operands that none of the other operations has is one of arithmetic. -/
theorem isMath_of_plain {op : Opcode} (plain : Format.ofOpcode op = .plain)
    (short : shortValue? op = none) (nop : op ≠ Opcode.nop) (null : op ≠ Opcode.aconst_null)
    (loads : ¬(Opcode.iaload ≤ op ∧ op ≤ Opcode.saload))
    (stores : ¬(Opcode.iastore ≤ op ∧ op ≤ Opcode.sastore))
    (converts : ¬(Opcode.i2l ≤ op ∧ op ≤ Opcode.i2s))
    (returns : ¬(Opcode.ireturn ≤ op ∧ op ≤ Opcode.returnVoid)) (length : op ≠ Opcode.arraylength)
    (throws : op ≠ Opcode.athrow) (enters : op ≠ Opcode.monitorenter)
    (leaves : op ≠ Opcode.monitorexit) (stack : StackOp.ofOpcode? op = none) :
    op.isMath = true := by
  rcases (simple_families op).2.2.2.2 ⟨plain, short, stack, nop, null⟩ with
    h | h | h | h | h | h | h | h | math
  · exact absurd h loads
  · exact absurd h stores
  · exact absurd h converts
  · exact absurd h returns
  · exact absurd h length
  · exact absurd h throws
  · exact absurd h enters
  · exact absurd h leaves
  · exact math

end Opcodes

theorem convert_eq_simple {source target : BaseType} {op : Opcode}
    (one : Conversion.opcodes? source target = some [op]) :
    convert (.base source) (.base target) .normal = simple op := by
  simp only [convert, one]
  exact bind_pure_unit

/-- The operation for an opcode without operands emits the opcode. -/
theorem perform_simpleOp {op : Opcode} (plain : Format.ofOpcode op = .plain)
    (f : Handle lab → Label) (g : Handle loc → Local) :
    perform ((simpleOp none op).map f g) = silently (simple op) := by
  unfold simpleOp
  cases short : shortValue? op with
  | some v => exact congrArg silently (loadConstant_pure (loadInstruction_shortValue short))
  | none =>
      dsimp only
      by_cases nop : op = Opcode.nop
      · rw [if_pos nop, nop]
        rfl
      rw [if_neg nop]
      by_cases null : op = Opcode.aconst_null
      · rw [if_pos null, null]
        rfl
      rw [if_neg null]
      by_cases loads : Opcode.iaload ≤ op ∧ op ≤ Opcode.saload
      · rw [if_pos loads]
        exact congrArg (silently <| simple ·) (arrayLoadOpcode_elementTypes loads)
      rw [if_neg loads]
      by_cases stores : Opcode.iastore ≤ op ∧ op ≤ Opcode.sastore
      · rw [if_pos stores]
        exact congrArg (silently <| simple ·) (arrayStoreOpcode_elementTypes stores)
      rw [if_neg stores]
      by_cases converts : Opcode.i2l ≤ op ∧ op ≤ Opcode.i2s
      · obtain ⟨source, target, found, one⟩ := convert_conversions converts
        rw [if_pos converts, found]
        exact congrArg silently (convert_eq_simple one)
      rw [if_neg converts]
      by_cases returns : Opcode.ireturn ≤ op ∧ op ≤ Opcode.returnVoid
      · have back := returnOpcode_ofReturnOpcode? returns
        rw [if_pos returns]
        cases kind : LocalKind.ofReturnOpcode? op with
        | none =>
            rw [kind] at back
            exact congrArg (silently <| simple ·) back
        | some kind' =>
            rw [kind] at back
            exact congrArg (silently <| simple ·) back
      rw [if_neg returns]
      by_cases length : op = Opcode.arraylength
      · rw [if_pos length, length]
        rfl
      rw [if_neg length]
      by_cases throws : op = Opcode.athrow
      · rw [if_pos throws, throws]
        rfl
      rw [if_neg throws]
      by_cases enters : op = Opcode.monitorenter
      · rw [if_pos enters, enters]
        rfl
      rw [if_neg enters]
      by_cases leaves : op = Opcode.monitorexit
      · rw [if_pos leaves, leaves]
        rfl
      rw [if_neg leaves]
      cases stack : StackOp.ofOpcode? op with
      | some s => exact congrArg (silently <| simple ·) (opcode_ofOpcode? stack)
      | none =>
          have math := isMath_of_plain plain short nop null loads stores converts returns length
            throws enters leaves stack
          change silently (if op.isMath then simple op else _) = _
          rw [if_pos math]

end Emit

namespace Instruction

variable {pool : Pool} {locals : Array LocalInfo} {op : Opcode} {entry : ConstantRef}
  {adjustment : Int16}

/-- Where an instruction with an entry comes from. -/
theorem Known.constant_cases (known : (constant op entry adjustment).Known pool locals) :
    (∃ v : Value, op = v.opcode ∧ adjustment = v.growth ∧ pool.HasValue v entry ∧
      Emit.loadInstruction v = do return .constant v.opcode (← Interning.value v) v.growth) ∨
    (∃ (owner : BinaryName) (name : String) (type : FieldType) (isStatic : Bool),
      pool.HasField owner.text name type.render entry ∧
      (constant op entry adjustment =
          accessField Opcode.getstatic Opcode.getfield isStatic type.width entry ∨
        constant op entry adjustment =
          accessField Opcode.putstatic Opcode.putfield isStatic (-(type.width : Int)) entry)) ∨
    (op = Opcode.new ∧ adjustment = 1 ∧ ∃ name : BinaryName, pool.HasClass name.text entry) ∨
    ((op = Opcode.anewarray ∨ op = Opcode.checkcast ∨ op = Opcode.instanceof) ∧ adjustment = 0 ∧
      ∃ r : RefType, pool.HasClass r.className entry) := by
  generalize same : constant op entry adjustment = x at known
  cases known with
  | @value v entry' load held =>
      cases same
      exact .inl ⟨v, rfl, rfl, held, load⟩
  | @getField owner name type entry' held isStatic =>
      have entries : entry = entry' := by cases isStatic <;> cases same <;> rfl
      subst entries
      exact .inr (.inl ⟨owner, name, type, isStatic, held, .inl rfl⟩)
  | @putField owner name type entry' held isStatic =>
      have entries : entry = entry' := by cases isStatic <;> cases same <;> rfl
      subst entries
      exact .inr (.inl ⟨owner, name, type, isStatic, held, .inr rfl⟩)
  | @newObject name entry' held =>
      cases same
      exact .inr (.inr (.inl ⟨rfl, rfl, name, held⟩))
  | @cls op' r entry' one held =>
      cases same
      exact .inr (.inr (.inr ⟨one, rfl, r, held⟩))
  | _ => cases same

theorem Known.invoke_cases {slots : UInt8}
    (known : (Instruction.invoke op entry adjustment slots).Known pool locals) :
    ∃ (kind : InvokeKind) (owner : RefType) (name : String) (descriptor : MethodDescriptor)
      (isInterface : Bool), descriptor.parameterSlots (kind != .static) ≤ 255 ∧
      pool.HasMethod owner.className name descriptor.render isInterface entry ∧
      Instruction.invoke op entry adjustment slots = call kind descriptor entry ∧
      op = kind.opcode := by
  generalize same : Instruction.invoke op entry adjustment slots = x at known
  cases known with
  | @invoke kind owner name descriptor isInterface entry' narrow held =>
      cases same
      exact ⟨kind, owner, name, descriptor, isInterface, narrow, held, rfl, rfl⟩
  | getField held isStatic => cases isStatic <;> cases same
  | putField held isStatic => cases isStatic <;> cases same
  | _ => cases same

/-- What is known of instructions without an entry, and of those for arrays. -/
theorem Known.shape {x : Instruction} (known : x.Known pool locals) :
    match x with
    | .immediate op n =>
      ((op = Opcode.bipush ∨ op = Opcode.sipush) ∧
          Emit.loadInstruction (.int n.toInt32) = pure (.immediate op n)) ∨
        (op = Opcode.newarray ∧ ∃ b : BaseType, n = Int16.ofNat b.arrayCode.toNat)
    | .multiNewArray entry dimensions => ∃ r : RefType,
      ¬(dimensions = 0 ∨ dimensions.toNat > r.dimensions) ∧ pool.HasClass r.className entry
    | .increment v _ => ∃ info, locals[v.index]? = some info ∧ info.kind = .int
    | .branch op _ => Format.ofOpcode op = .branch ∧ op ≠ Opcode.jsr
    | .switch _ cases table => table = prefersTable cases
    | .ret _ => False
    | _ => True := by
  cases known with
  | immediate family load => exact .inl ⟨family, load⟩
  | newArray b => exact .inr ⟨rfl, b, rfl⟩
  | getField held isStatic => cases isStatic <;> exact trivial
  | putField held isStatic => cases isStatic <;> exact trivial
  | multiNewArray fits held => exact ⟨_, fits, held⟩
  | increment amount stored int => exact ⟨_, stored, int⟩
  | branch target near stays => exact ⟨near, stays⟩
  | switch default cases => exact rfl
  | _ => exact trivial

end Instruction

/-- The workspace with other nodes in its draft. -/
def Workspace.withNodes (ws : Workspace) (nodes : Array Node) (order : Array NodeId) : Workspace :=
  { ws with builder := { ws.builder with draft := { ws.builder.draft with nodes, order } } }

namespace Emit

variable {α β : Type} {ws : Workspace}

theorem silently_congr {x y : Emit Unit} (same : x ws = y ws) : silently x ws = silently y ws := by
  rw [silently, silently, run_bind, run_bind, same]

/-- What the pool holds is not interned again. -/
theorem interning_found {x : Interning α} {Holds : Pool → α → Prop} (finds : x.Finds Holds) {a : α}
    (held : Holds ws.pool a) (f : α → Emit β) : (interning x >>= f) ws = f a ws := by
  obtain ⟨pool, builder⟩ := ws
  have found : interning x ⟨pool, builder⟩ = (.ok a, ⟨pool, builder⟩) := by
    unfold interning
    dsimp only
    rw [finds.found held]
  rw [run_bind, found]

theorem localInfo_found {v : Local} {info : LocalInfo}
    (found : ws.builder.draft.localInfo v = .ok info) (f : LocalInfo → Emit β) :
    (localInfo v >>= f) ws = f info ws := by
  rw [run_bind, localInfo, found]

/-- With whatever nodes its draft has by then, the workspace does the operation of a script as
appending the instruction. The labels of the script are the first nodes. -/
def Redoes (base : Workspace) (labels : Std.HashMap Nat Nat)
    (op : Op (Handle Label) (Handle Local)) (y : Instruction) : Prop :=
  ∀ (b : Bindings) (nodes : Array Node) (order : Array NodeId),
    (∀ (a n : Nat), labels[a]? = some n → b.labels[n]? = some ⟨base.builder.draft.id, n⟩) →
      perform (op.map (b.label (base.withNodes nodes order).builder.draft)
          (b.var (base.withNodes nodes order).builder.draft)) (base.withNodes nodes order) =
        silently (push y) (base.withNodes nodes order)

/-- The script has an operation for the decoded instruction, which appends the given one. -/
def Redone (base : Workspace) (table : Pool.IndexTable) (fixed : List UInt16)
    (s : Script Label Local) (i : Decoded) (y : Instruction) : Prop :=
  ∃ op, Writing.instruction ⟨base.pool, table⟩ base.builder.owner.text fixed none i s =
      (.ok (), { s with ops := s.ops.push op }) ∧
    Redoes base s.labels op y

variable {base : Workspace} {table : Pool.IndexTable} {fixed : List UInt16}
  {s : Script Label Local} {labels : Std.HashMap Nat Nat}

theorem redoes_of_eq {op : Op (Handle Label) (Handle Local)} {x : Emit Unit} {y : Instruction}
    (does : ∀ f g, perform (op.map f g) = silently x)
    (same : ∀ nodes order, x (base.withNodes nodes order) = push y (base.withNodes nodes order)) :
    Redoes base labels op y := by
  intro b nodes order _
  rw [does]
  exact silently_congr (same nodes order)

theorem redone_simple {op : Opcode} (plain : Format.ofOpcode op = .plain) :
    Redone base table fixed s (.simple op) (.simple op) :=
  ⟨_, rfl, redoes_of_eq (perform_simpleOp plain) fun _ _ => rfl⟩

theorem redone_push {op : Opcode} {n : Int16}
    (load : loadInstruction (.int n.toInt32) = pure (.immediate op n)) :
    Redone base table fixed s (.push n) (.immediate op n) :=
  ⟨_, rfl, redoes_of_eq (fun _ _ => rfl) fun _ _ => by rw [loadConstant_pure load]⟩

/-- An operation that was looked up first. -/
theorem redone_lift {i : Decoded} {x : Except Fault α} {f : α → Op (Handle Label) (Handle Local)}
    {a : α} {y : Instruction}
    (shape : Writing.instruction ⟨base.pool, table⟩ base.builder.owner.text fixed none i =
      do Writing.emit (f (← Writing.lift x)))
    (found : x = .ok a) (redoes : Redoes base s.labels (f a) y) :
    Redone base table fixed s i y := by
  refine ⟨f a, ?_, redoes⟩
  rw [shape, found]
  rfl

/-- An instruction around what the pool holds is appended as it is. -/
theorem redoes_interned {op : Op (Handle Label) (Handle Local)} {x : Interning α}
    {Holds : Pool → α → Prop} (finds : x.Finds Holds) {f : α → Instruction} {a : α}
    (held : Holds base.pool a)
    (does : ∀ g h, perform (op.map g h) = silently (do push (f (← interning x)))) :
    Redoes base labels op (f a) :=
  redoes_of_eq does fun nodes order =>
    @interning_found _ _ (base.withNodes nodes order) _ _ finds _ held _

section Constants

variable {entry : ConstantRef} {index : UInt16}

theorem redone_value (coherent : base.pool.Coherent) (known : table.lookup index = .ok entry)
    {v : Value} (held : base.pool.HasValue v entry)
    (load : loadInstruction v = do return .constant v.opcode (← Interning.value v) v.growth) :
    Redone base table fixed s (.ldc index) (.constant v.opcode entry v.growth) := by
  refine redone_lift (f := fun v => .loadConstant v) rfl
    (Constants.value_eq coherent known held) ?_
  refine redoes_interned (f := fun x => x)
    ((Interning.finds_value v).bind fun e =>
      Interning.finds_pure (Instruction.constant v.opcode e v.growth)) ⟨entry, held, rfl⟩ ?_
  intro g h
  change silently (loadConstant v) = _
  rw [loadConstant, load]

theorem field_found {static dynamic : Opcode} {owner : Option BinaryName} {name : String}
    {type : FieldType} {isStatic : Bool} {adjustment : Int}
    (held : ws.pool.HasField (owner.getD ws.builder.owner).text name type.render entry) :
    field static dynamic owner name type isStatic adjustment ws =
      push (.accessField static dynamic isStatic adjustment entry) ws := by
  rw [field, run_bind]
  change (interning _ >>= _) ws = _
  rw [interning_found (Interning.finds_fieldRef _ name type) held, Instruction.accessField]
  split <;> rfl

end Constants

end Emit

namespace Writing

variable {lab loc : Type} {k : Constants} {className : String} {op : Opcode} {index : UInt16}
  {m : Pool.Member}

theorem memberOp_field (found : k.member index = .ok m) (other : InvokeKind.ofOpcode? op = none)
    {type : FieldType} (typed : FieldType.ofText m.descriptor = .ok type) {owner : BinaryName}
    (owned : BinaryName.ofText m.owner = .ok owner) :
    (memberOp k className op index : Except Fault (Op (Handle lab) (Handle loc))) =
      let owner := if m.owner = className then none else some owner
      let isStatic := op == Opcode.getstatic || op == Opcode.putstatic
      .ok (if op = Opcode.getfield ∨ op = Opcode.getstatic then .getField owner m.name type isStatic
        else .putField owner m.name type isStatic) := by
  refine bind_eq_ok.mpr ⟨m, found, ?_⟩
  dsimp only
  rw [other]
  refine bind_eq_ok.mpr ⟨type, typed, ?_⟩
  by_cases own : m.owner = className
  · rw [if_pos (beq_iff_eq.mpr own), if_pos own]
    split <;> rfl
  · rw [if_neg (beq_iff_eq.not.mpr own), if_neg own, owned]
    split <;> rfl

theorem memberOp_method (found : k.member index = .ok m) {kind : InvokeKind}
    (call : InvokeKind.ofOpcode? op = some kind) {descriptor : MethodDescriptor}
    (typed : MethodDescriptor.ofText m.descriptor = .ok descriptor) {owner : RefType}
    (owned : RefType.ofClassName m.owner = .ok owner) :
    (memberOp k className op index : Except Fault (Op (Handle lab) (Handle loc))) =
      .ok (.invoke kind (if m.owner = className then none else some owner) m.name descriptor
        m.isInterface) := by
  refine bind_eq_ok.mpr ⟨m, found, ?_⟩
  dsimp only
  rw [call]
  refine bind_eq_ok.mpr ⟨descriptor, typed, ?_⟩
  by_cases own : m.owner = className
  · rw [if_pos (beq_iff_eq.mpr own), if_pos own]
    rfl
  · rw [if_neg (beq_iff_eq.not.mpr own), if_neg own, owned]
    rfl

end Writing

/-- The owner that is left out is the class itself. -/
theorem BinaryName.owner_getD (owner self : BinaryName) :
    (if owner.text = self.text then none else some owner).getD self = owner := by
  split
  · rename_i same
    have both := BinaryName.ofText_text owner
    rw [same, BinaryName.ofText_text] at both
    exact Except.ok.inj both
  · rfl

theorem RefType.owner_getD (owner : RefType) (self : BinaryName) :
    (if owner.className = self.text then none else some owner).getD (.object self) = owner := by
  split
  · rename_i same
    have both := RefType.ofClassName_className owner
    rw [same] at both
    exact Except.ok.inj ((RefType.ofClassName_className (.object self)).symm.trans both)
  · rfl

namespace Emit

open Writing

variable {base : Workspace} {table : Pool.IndexTable} {fixed : List UInt16}
  {s : Script Label Local} {entry : ConstantRef} {index : UInt16}

/-- A field is accessed again, whether it is one of the class itself or not. -/
theorem redone_field (coherent : base.pool.Coherent) (known : table.lookup index = .ok entry)
    {owner : BinaryName} {name : String} {type : FieldType}
    (held : base.pool.HasField owner.text name type.render entry) {op static dynamic : Opcode}
    {isStatic : Bool} {adjustment : Int} (other : InvokeKind.ofOpcode? op = none)
    (does : ∀ (owner : Option BinaryName) f g, perform ((if op = Opcode.getfield ∨
        op = Opcode.getstatic then Op.getField owner name type (op == Opcode.getstatic ||
          op == Opcode.putstatic)
        else .putField owner name type (op == Opcode.getstatic || op == Opcode.putstatic) :
          Op (Handle Label) (Handle Local)).map f g) =
      silently (field static dynamic owner name type isStatic adjustment)) :
    Redone base table fixed s (.member op index)
      (.accessField static dynamic isStatic adjustment entry) := by
  have found : Constants.member ⟨base.pool, table⟩ index =
      .ok ⟨owner.text, name, type.render, false⟩ :=
    bind_eq_ok.mpr ⟨_, known, coherent.getMember_field held⟩
  refine redone_lift (f := fun op => op) rfl (memberOp_field found other
    (FieldType.ofText_render type) (BinaryName.ofText_text owner)) ?_
  rw [← BinaryName.owner_getD owner base.builder.owner] at held
  exact redoes_of_eq (does _) fun nodes order => field_found held

theorem redone_getField (coherent : base.pool.Coherent) (known : table.lookup index = .ok entry)
    {owner : BinaryName} {name : String} {type : FieldType}
    (held : base.pool.HasField owner.text name type.render entry) (isStatic : Bool) :
    Redone base table fixed s
      (.member (if isStatic then Opcode.getstatic else Opcode.getfield) index)
      (.accessField Opcode.getstatic Opcode.getfield isStatic type.width entry) := by
  cases isStatic with
  | true => exact redone_field coherent known held (by decide) fun _ _ _ => rfl
  | false => exact redone_field coherent known held (by decide) fun _ _ _ => rfl

theorem redone_putField (coherent : base.pool.Coherent) (known : table.lookup index = .ok entry)
    {owner : BinaryName} {name : String} {type : FieldType}
    (held : base.pool.HasField owner.text name type.render entry) (isStatic : Bool) :
    Redone base table fixed s
      (.member (if isStatic then Opcode.putstatic else Opcode.putfield) index)
      (.accessField Opcode.putstatic Opcode.putfield isStatic (-(type.width : Int)) entry) := by
  cases isStatic with
  | true => exact redone_field coherent known held (by decide) fun _ _ _ => rfl
  | false => exact redone_field coherent known held (by decide) fun _ _ _ => rfl

theorem invoke_found {kind : InvokeKind} {owner : Option RefType} {name : String}
    {descriptor : MethodDescriptor} {isInterface : Bool} {ws : Workspace}
    (narrow : descriptor.parameterSlots (kind != .static) ≤ 255)
    (held : ws.pool.HasMethod (owner.getD (.object ws.builder.owner)).className name
      descriptor.render isInterface entry) :
    Emit.invoke kind owner name descriptor isInterface ws =
      push (.call kind descriptor entry) ws := by
  rw [Emit.invoke, if_neg (Nat.not_lt.mpr narrow), run_bind]
  change (interning _ >>= _) ws = _
  rw [interning_found (Interning.finds_methodRef _ name descriptor isInterface) held]
  rfl

theorem redone_invoke (coherent : base.pool.Coherent) (known : table.lookup index = .ok entry)
    {kind : InvokeKind} {owner : RefType} {name : String} {descriptor : MethodDescriptor}
    {isInterface : Bool} (narrow : descriptor.parameterSlots (kind != .static) ≤ 255)
    (held : base.pool.HasMethod owner.className name descriptor.render isInterface entry) :
    Redone base table fixed s (.member kind.opcode index) (.call kind descriptor entry) := by
  have found : Constants.member ⟨base.pool, table⟩ index =
      .ok ⟨owner.className, name, descriptor.render, isInterface⟩ :=
    bind_eq_ok.mpr ⟨_, known, coherent.getMember_method held⟩
  have call : InvokeKind.ofOpcode? kind.opcode = some kind := by cases kind <;> decide
  refine redone_lift (f := fun op => op) rfl (memberOp_method found call
    (MethodDescriptor.ofText_render descriptor) (RefType.ofClassName_className owner)) ?_
  rw [← RefType.owner_getD owner base.builder.owner] at held
  exact redoes_of_eq (fun _ _ => rfl) fun nodes order => invoke_found narrow held

/-- An operation on a class that was looked up. -/
theorem redone_class (coherent : base.pool.Coherent) (known : table.lookup index = .ok entry)
    {op : Opcode} {r : RefType} (held : base.pool.HasClass r.className entry) {adjustment : Int16}
    {o : Op (Handle Label) (Handle Local)}
    (written : ∀ k : Constants, k.cls index = .ok r → classOp k op index = .ok o)
    (does : ∀ f g, perform (o.map f g) = silently (classOperand op r adjustment)) :
    Redone base table fixed s (.cls op index) (.constant op entry adjustment) :=
  redone_lift (f := fun o => o) rfl (written _ (Constants.cls_eq coherent known held))
    (redoes_interned (f := fun e => .constant op e adjustment) (Interning.finds_cls r) held does)

theorem redone_cls (coherent : base.pool.Coherent) (known : table.lookup index = .ok entry)
    {op : Opcode} {r : RefType}
    (one : op = Opcode.anewarray ∨ op = Opcode.checkcast ∨ op = Opcode.instanceof)
    (held : base.pool.HasClass r.className entry) :
    Redone base table fixed s (.cls op index) (.constant op entry 0) := by
  rcases one with rfl | rfl | rfl
  · exact redone_class coherent known held (o := .newArray (.ref r))
      (fun k found => by rw [classOp, found]; rfl) fun _ _ => rfl
  · exact redone_class coherent known held (o := .checkCast r)
      (fun k found => by rw [classOp, found]; rfl) fun _ _ => rfl
  · exact redone_class coherent known held (o := .instanceOf r)
      (fun k found => by rw [classOp, found]; rfl) fun _ _ => rfl

theorem redone_newObject (coherent : base.pool.Coherent) (known : table.lookup index = .ok entry)
    {name : BinaryName} (held : base.pool.HasClass name.text entry) :
    Redone base table fixed s (.cls Opcode.new index) (.constant Opcode.new entry 1) :=
  redone_class (r := .object name) coherent known held (o := .newObject name)
    (fun k found => by rw [classOp, found]; rfl) fun _ _ => rfl

theorem redone_multiNewArray (coherent : base.pool.Coherent)
    (known : table.lookup index = .ok entry) {r : RefType} {dimensions : UInt8}
    (fits : ¬(dimensions = 0 ∨ dimensions.toNat > r.dimensions))
    (held : base.pool.HasClass r.className entry) :
    Redone base table fixed s (.multiNewArray index dimensions)
      (.multiNewArray entry dimensions) := by
  refine redone_lift (f := fun r => .newMultiArray r dimensions) rfl
    (Constants.cls_eq coherent known held) ?_
  refine redoes_interned (f := fun e => .multiNewArray e dimensions) (Interning.finds_cls r) held ?_
  intro _ _
  change silently (newMultiArray r dimensions) = _
  rw [newMultiArray, if_neg fits]

theorem redone_newArray (b : BaseType) :
    Redone base table fixed s (.newArray b.arrayCode)
      (.immediate Opcode.newarray (Int16.ofNat b.arrayCode.toNat)) := by
  refine ⟨.newArray (.base b), ?_, redoes_of_eq (fun _ _ => rfl) fun _ _ => rfl⟩
  have back : BaseType.ofArrayCode? b.arrayCode = some b := by cases b <;> rfl
  rw [Writing.instruction, back]
  rfl

section Locals

variable {slot : UInt16} {info : LocalInfo} {i : Nat}

/-- An instruction on a slot, which stands for a local of the workspace. -/
theorem redone_local (stored : base.builder.draft.locals[i]? = some info)
    (bound : s.slots.find? slot info.kind = some (.given ⟨base.builder.draft.id, i⟩))
    {x : Decoded} {op : Handle Local → Op (Handle Label) (Handle Local)}
    {f : Local → LocalInfo → Emit Unit} {y : Instruction}
    (shape : Writing.instruction ⟨base.pool, table⟩ base.builder.owner.text fixed none x =
      do emit (op (← localAt fixed slot info.kind)))
    (does : ∀ g h v, perform ((op v).map g h) = silently (do f (h v) (← localInfo (h v))))
    (pushes : f ⟨base.builder.draft.id, i⟩ info = push y) : Redone base table fixed s x y := by
  refine ⟨op (.given ⟨base.builder.draft.id, i⟩), ?_, ?_⟩
  · have found : localAt fixed slot info.kind s =
        (.ok (.given ⟨base.builder.draft.id, i⟩), s) := by rw [localAt, bound]
    rw [shape, run_bind, found]
    rfl
  · intro b nodes order _
    rw [does, ← pushes]
    have known : (base.withNodes nodes order).builder.draft.localInfo
        ⟨base.builder.draft.id, i⟩ = .ok info := Draft.localInfo_eq_ok.mpr ⟨rfl, stored⟩
    exact silently_congr (localInfo_found known _)

theorem redone_load (stored : base.builder.draft.locals[i]? = some info)
    (bound : s.slots.find? slot info.kind = some (.given ⟨base.builder.draft.id, i⟩)) :
    Redone base table fixed s (.access info.kind slot false)
      (.load ⟨base.builder.draft.id, i⟩ info.kind) :=
  redone_local stored bound (f := fun v info => push (.load v info.kind)) rfl (fun _ _ _ => rfl) rfl

theorem redone_store (stored : base.builder.draft.locals[i]? = some info)
    (bound : s.slots.find? slot info.kind = some (.given ⟨base.builder.draft.id, i⟩)) :
    Redone base table fixed s (.access info.kind slot true)
      (.store ⟨base.builder.draft.id, i⟩ info.kind false) :=
  redone_local stored bound (f := fun v info => push (.store v info.kind false)) rfl
    (fun _ _ _ => rfl) rfl

theorem redone_increment (stored : base.builder.draft.locals[i]? = some info)
    (int : info.kind = .int) (amount : Int16)
    (bound : s.slots.find? slot info.kind = some (.given ⟨base.builder.draft.id, i⟩)) :
    Redone base table fixed s (.increment slot amount)
      (.increment ⟨base.builder.draft.id, i⟩ amount) := by
  refine redone_local stored bound (f := fun v info =>
      if info.kind != .int then fail (.invalidOperand (.incrementOf info.type))
      else push (.increment v amount)) (by rw [int]; rfl) (fun _ _ _ => rfl) ?_
  rw [int]
  rfl

end Locals

section Jumps

/-- The operations for jumps, range by range. -/
theorem branch_families (op : Opcode) : Format.ofOpcode op = .branch →
    op ≠ Opcode.goto_w ∧ op ≠ Opcode.jsr_w ∧ (op = Opcode.goto ∨ op = Opcode.jsr ∨
      op = Opcode.ifnull ∨ op = Opcode.ifnonnull ∨ ∃ c ∈ Comparison.all,
        Comparison.ofOpcode? op = some c ∧ op ≠ Opcode.goto ∧ op ≠ Opcode.ifnull ∧
        op ≠ Opcode.ifnonnull ∧ ((op ≤ Opcode.ifle ∧ c.zeroOpcode = op) ∨
          (¬ op ≤ Opcode.ifle ∧ op < Opcode.if_acmpeq ∧ c.intOpcode = op) ∨
          (¬ op ≤ Opcode.ifle ∧ ¬ op < Opcode.if_acmpeq ∧ c.referenceOpcode? = some op))) := by
  revert op
  exact Opcode.forall_of_decide (by decide +kernel)

/-- The branch of each opcode is made by one operation. -/
theorem perform_branchOp {op : Opcode} (near : Format.ofOpcode op = .branch)
    (stays : op ≠ Opcode.jsr) (target : Handle Label) :
    ∃ o : Op (Handle Label) (Handle Local), branchOp op target = .ok o ∧
      ∀ f g, perform (o.map f g) = silently (branch op (f target)) := by
  obtain ⟨goto_w, jsr_w, one⟩ := branch_families op near
  rcases one with rfl | rfl | rfl | rfl | ⟨c, -, found, goto, null, nonnull, range⟩
  · exact ⟨_, rfl, fun _ _ => rfl⟩
  · exact absurd rfl stays
  · exact ⟨_, rfl, fun _ _ => rfl⟩
  · exact ⟨_, rfl, fun _ _ => rfl⟩
  · rw [branchOp, if_neg (not_or.mpr ⟨goto, goto_w⟩), if_neg (not_or.mpr ⟨stays, jsr_w⟩),
      if_neg null, if_neg nonnull, found]
    rcases range with ⟨low, same⟩ | ⟨low, high, same⟩ | ⟨low, high, same⟩
    · exact ⟨_, if_pos low, fun f _ => congrArg (fun op => silently (branch op (f target))) same⟩
    · refine ⟨_, (if_neg low).trans (if_pos high), fun f _ => ?_⟩
      exact congrArg (fun op => silently (branch op (f target))) same
    · refine ⟨_, (if_neg low).trans (if_neg high), fun f _ => ?_⟩
      change silently (ifCompare (f target) c (.object .object)) = _
      unfold ifCompare Comparison.referenceOpcode
      rw [same]
      rfl

/-- The label for an address in a script, as a node of the workspace. -/
def labelFor (base : Workspace) (labels : Std.HashMap Nat Nat) (address : Nat) : Label :=
  ⟨base.builder.draft.id, labels.getD address 0⟩

theorem labelAt_known {address : Nat} (known : address ∈ s.labels) :
    labelAt address s = (.ok (.made (s.labels.getD address 0)), s) := by
  have found : s.labels[address]? = some (s.labels.getD address 0) := by
    rw [Std.HashMap.getD_eq_getD_getElem?, Std.HashMap.getElem?_eq_some_getElem known]
    rfl
  rw [labelAt, found]

theorem label_bound {labels : Std.HashMap Nat Nat} {b : Bindings}
    (bound : ∀ (a n : Nat), labels[a]? = some n → b.labels[n]? = some ⟨base.builder.draft.id, n⟩)
    {address : Nat} (known : address ∈ labels) (d : Draft) :
    b.label d (.made (labels.getD address 0)) = labelFor base labels address := by
  have found : labels[address]? = some (labels.getD address 0) := by
    rw [Std.HashMap.getD_eq_getD_getElem?, Std.HashMap.getElem?_eq_some_getElem known]
    rfl
  rw [Bindings.label, Array.getD_eq_getD_getElem?, bound address _ found]
  rfl

theorem redone_branch {op : Opcode} (near : Format.ofOpcode op = .branch) (stays : op ≠ Opcode.jsr)
    {there : Nat} (known : there ∈ s.labels) :
    Redone base table fixed s (.branch op there) (.branch op (labelFor base s.labels there)) := by
  obtain ⟨o, made, does⟩ := perform_branchOp near stays (.made (s.labels.getD there 0))
  refine ⟨o, ?_, ?_⟩
  · rw [Writing.instruction, run_bind, labelAt_known known]
    change (Writing.lift (branchOp op (.made (s.labels.getD there 0))) >>= emit) s = _
    rw [made]
    rfl
  · intro b nodes order bound
    rw [does, label_bound bound known]
    rfl

theorem mapM_labelAt {rows : List (Int32 × Nat)} (known : ∀ row ∈ rows, row.2 ∈ s.labels) :
    (rows.mapM fun row => do return (row.1, ← labelAt row.2) :
        Writing Label Local (List (Int32 × Handle Label))) s =
      (.ok (rows.map fun row => (row.1, .made (s.labels.getD row.2 0))), s) := by
  induction rows with
  | nil => rfl
  | cons row rows ih =>
      rw [List.forall_mem_cons] at known
      have first : (do return (row.1, ← labelAt row.2) :
          Writing Label Local (Int32 × Handle Label)) s = _ :=
        run_bind_eq_ok.mpr ⟨_, s, labelAt_known known.1, rfl⟩
      rw [List.mapM_cons]
      exact run_bind_eq_ok.mpr ⟨_, s, first, run_bind_eq_ok.mpr ⟨_, s, ih known.2, rfl⟩⟩

theorem redone_switch {there : Nat} {rows : List (Int32 × Nat)} (default : there ∈ s.labels)
    (known : ∀ row ∈ rows, row.2 ∈ s.labels) :
    Redone base table fixed s (.switch there rows)
      (Instruction.switchOver (labelFor base s.labels there)
        (rows.map fun row => (row.1, labelFor base s.labels row.2))) := by
  refine ⟨.switch (.made (s.labels.getD there 0))
    (rows.map fun row => (row.1, .made (s.labels.getD row.2 0))), ?_, ?_⟩
  · rw [Writing.instruction, run_bind, labelAt_known default]
    change (List.mapM (fun row : Int32 × Nat => do return (row.1, ← labelAt row.2)) rows >>= _) s = _
    rw [run_bind, mapM_labelAt known]
    rfl
  · intro b nodes order bound
    have rest : (rows.map fun row => (row.1, Handle.made (s.labels.getD row.2 0))).map
        (fun c => (c.1, b.label (base.withNodes nodes order).builder.draft c.2)) =
        rows.map fun row => (row.1, labelFor base s.labels row.2) := by
      rw [List.map_map]
      refine List.map_congr_left fun row member => ?_
      exact congrArg (Prod.mk row.1) (label_bound bound (known row member) _)
    rw [Op.map, rest, label_bound bound default]
    rfl

end Jumps

section Instructions

variable {d : Draft} {offsets : Offsets}

/-- The label of a script for a label that has an offset. -/
def relabelled (base : Workspace) (labels : Std.HashMap Nat Nat) (offsets : Offsets)
    (target : Label) : Label :=
  labelFor base labels ((offsets.of? target.node).getD 0)

/-- The local of a workspace with the number of another. -/
def revalued (base : Workspace) (v : Local) : Local := ⟨base.builder.draft.id, v.index⟩

theorem relabelled_eq {labels : Std.HashMap Nat Nat} {target : Label} {there : Nat}
    (known : offsets.of? target.node = some there) :
    relabelled base labels offsets target = labelFor base labels there := by
  rw [relabelled, known, Option.getD_some]

section Constants

variable {op : Opcode} {adjustment : Int16}

/-- An instruction with an entry that is decoded as a load of a constant loads that constant. -/
theorem redone_ldc (coherent : base.pool.Coherent) (held : table.lookup index = .ok entry)
    {locals : Array LocalInfo}
    (known : (Instruction.constant op entry adjustment).Known base.pool locals)
    (family : op = Opcode.ldc ∨ op = Opcode.ldc_w ∨ op = Opcode.ldc2_w) :
    Redone base table fixed s (.ldc index) (.constant op entry adjustment) := by
  rcases known.constant_cases with ⟨v, rfl, rfl, value, load⟩ |
    ⟨owner, name, type, isStatic, -, access | access⟩ | ⟨rfl, -⟩ | ⟨one, -⟩
  · exact redone_value coherent held value load
  · cases isStatic <;> cases access <;> exact absurd family (by decide)
  · cases isStatic <;> cases access <;> exact absurd family (by decide)
  · exact absurd family (by decide)
  · rcases one with rfl | rfl | rfl <;> exact absurd family (by decide)

/-- One that is decoded as an access to a member accesses that field. -/
theorem redone_access (coherent : base.pool.Coherent) (held : table.lookup index = .ok entry)
    {locals : Array LocalInfo}
    (known : (Instruction.constant op entry adjustment).Known base.pool locals)
    (formed : Format.ofOpcode op = .member ∨ Format.ofOpcode op = .interface) :
    Redone base table fixed s (.member op index) (.constant op entry adjustment) := by
  rcases known.constant_cases with ⟨v, rfl, -⟩ |
    ⟨owner, name, type, isStatic, field, access | access⟩ | ⟨rfl, -⟩ | ⟨one, -⟩
  · cases v <;> exact absurd formed (by simp only [Value.opcode]; decide)
  · have redone : Redone base table fixed s _ _ :=
      redone_getField coherent held field isStatic
    rw [← access] at redone
    cases isStatic <;> cases access <;> exact redone
  · have redone : Redone base table fixed s _ _ :=
      redone_putField coherent held field isStatic
    rw [← access] at redone
    cases isStatic <;> cases access <;> exact redone
  · exact absurd formed (by decide)
  · rcases one with rfl | rfl | rfl <;> exact absurd formed (by decide)

/-- One that is decoded as an operation on a class is that operation. -/
theorem redone_classOperand (coherent : base.pool.Coherent) (held : table.lookup index = .ok entry)
    {locals : Array LocalInfo}
    (known : (Instruction.constant op entry adjustment).Known base.pool locals)
    (formed : Format.ofOpcode op = .cls) :
    Redone base table fixed s (.cls op index) (.constant op entry adjustment) := by
  rcases known.constant_cases with ⟨v, rfl, -⟩ |
    ⟨owner, name, type, isStatic, -, access | access⟩ | ⟨rfl, rfl, name, cls⟩ |
    ⟨one, rfl, r, cls⟩
  · cases v <;> exact absurd formed (by simp only [Value.opcode]; decide)
  · cases isStatic <;> cases access <;> exact absurd formed (by decide)
  · cases isStatic <;> cases access <;> exact absurd formed (by decide)
  · exact redone_newObject coherent held cls
  · exact redone_cls coherent held one cls

end Constants

/-- What is decoded of a switch is the switch in terms of the labels of the script. -/
theorem redone_switchOver {default : Label} {cases : List (Int32 × Label)} {there : Nat}
    {rows : List (Int32 × Nat)} (sorted : cases.Pairwise fun c c' => c.1 < c'.1)
    (known : offsets.of? default.node = some there)
    (keys : rows.map (·.1) = switchKeys cases (Instruction.prefersTable cases))
    (targets : ∀ row ∈ rows, offsets.of? ((cases.lookup row.1).getD default).node = some row.2)
    (labelled : there ∈ s.labels ∧ ∀ row ∈ rows, row.2 ∈ s.labels) (var : Local → Local) :
    Redone base table fixed s (.switch there rows)
      ((Instruction.switch default cases (Instruction.prefersTable cases)).renewed
        (relabelled base s.labels offsets) var) := by
  rw [← Instruction.switchOver_renewed sorted, relabelled_eq known, ← keys, List.map_map]
  have same : (rows.map fun row => (row.1, labelFor base s.labels row.2)) =
      rows.map ((fun key => (key, relabelled base s.labels offsets
        ((cases.lookup key).getD default))) ∘ (·.1)) := by
    refine List.map_congr_left fun row member => ?_
    rw [Function.comp_apply, relabelled_eq (targets row member)]
  rw [← same]
  exact redone_switch labelled.1 labelled.2

/-- Where each slot stands for a local. -/
def SlotsBound (base : Workspace) (slots : SlotMap Local) : Prop :=
  ∀ (v : Nat) (info : LocalInfo) (slot : UInt16), base.builder.draft.locals[v]? = some info →
    info.slot = some slot → slots.find? slot info.kind = some (.given ⟨base.builder.draft.id, v⟩)

/-- What is decoded of an instruction makes the instruction again, in terms of the labels of the
script and the locals of the workspace. -/
theorem redone_renewed {x : Instruction} {i : Decoded} (coherent : base.pool.Coherent)
    (numbered : base.pool.Numbered) (indices : base.pool.indexTable = .ok table)
    (locals : base.builder.draft.locals = d.locals) (known : x.Known base.pool d.locals)
    (writable : x.Writable d.locals) (bound : SlotsBound base s.slots)
    (labelled : ∀ target ∈ i.targets, target ∈ s.labels) (formed : i.Formed)
    (same : Corresponds d base.pool offsets x i) :
    Redone base table fixed s i
      (x.renewed (relabelled base s.labels offsets) (revalued base)) := by
  have held : ∀ {entry index}, base.pool.indexOf entry = .ok index →
      table.lookup index = .ok entry := fun found => numbered.lookup indices found
  have shape := known.shape
  cases same with
  | simple op => exact redone_simple writable
  | push value family =>
      rcases shape with ⟨-, load⟩ | ⟨rfl, -⟩
      · exact redone_push load
      · exact absurd family (by decide)
  | newArray code =>
      rcases shape with ⟨family, -⟩ | ⟨-, b, operand⟩
      · exact absurd family (by decide)
      · have codes : code = b.arrayCode := by
          rw [← Encoding.newArray_code code, operand, Encoding.newArray_code]
        rw [codes]
        exact redone_newArray b
  | ldc family index => exact redone_ldc coherent (held index) known family
  | field index => exact redone_access coherent (held index) known formed
  | cls index => exact redone_classOperand coherent (held index) known formed
  | invoke index =>
      obtain ⟨kind, owner, name, descriptor, isInterface, narrow, method, call, rfl⟩ :=
        known.invoke_cases
      rw [call]
      exact redone_invoke coherent (held index) narrow method
  | multiNewArray index =>
      obtain ⟨r, fits, cls⟩ := shape
      exact redone_multiNewArray coherent (held index) fits cls
  | @load v kind info slot stored given =>
      obtain ⟨info', stored', rfl⟩ := writable
      cases stored.symm.trans stored'
      rw [← locals] at stored
      exact redone_load stored (bound v.index info slot stored given)
  | @store v kind info slot stored given =>
      obtain ⟨info', stored', rfl⟩ := writable
      cases stored.symm.trans stored'
      rw [← locals] at stored
      exact redone_store stored (bound v.index info slot stored given)
  | @dropped v kind =>
      exact redone_simple (by split; exacts [plain_stack .pop2, plain_stack .pop])
  | @increment v amount slot given =>
      obtain ⟨info, stored, fixed⟩ := exists_of_slotOf given
      obtain ⟨info', stored', int⟩ := shape
      cases stored.symm.trans stored'
      rw [← locals] at stored
      exact redone_increment stored int amount (bound v.index info slot stored fixed)
  | ret given => exact shape.elim
  | @branch op target there found =>
      rw [Instruction.renewed, relabelled_eq found]
      exact redone_branch shape.1 shape.2 (labelled there (List.mem_singleton.mpr rfl))
  | @switch default cases preferred there rows found keys targets =>
      have chosen : preferred = Instruction.prefersTable cases := shape
      subst chosen
      refine redone_switchOver writable found keys targets ⟨?_, fun row member => ?_⟩ _
      · exact labelled _ List.mem_cons_self
      · exact labelled _ (List.mem_cons_of_mem _ (List.mem_map_of_mem member))

end Instructions

end Emit

end JvmAssembly
