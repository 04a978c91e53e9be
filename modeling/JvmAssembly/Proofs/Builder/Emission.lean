import Mathlib
import JvmAssembly.Proofs.Builder.Creation
import JvmAssembly.Proofs.Draft.Writable

/-!
What a builder emits. All it writes into a draft can be decoded again, whatever operations are
carried out and whether or not they succeed.
-/
namespace JvmAssembly

namespace Instruction

theorem pairwise_dropRepeats {c : Int32 × Label} {cs : List (Int32 × Label)}
    (sorted : (c :: cs).Pairwise fun x y => x.1 ≤ y.1) :
    (dropRepeats c cs).Pairwise (fun x y => x.1 < y.1) ∧ ∀ x ∈ dropRepeats c cs, c.1 ≤ x.1 := by
  induction cs generalizing c with
  | nil =>
      refine ⟨List.pairwise_singleton _ c, ?_⟩
      exact List.forall_mem_singleton.mpr (Int32.le_refl c.1)
  | cons x cs ih =>
      rw [List.pairwise_cons, List.forall_mem_cons] at sorted
      obtain ⟨⟨first, after⟩, rest⟩ := sorted
      rw [dropRepeats]
      split
      · exact ih (List.pairwise_cons.mpr ⟨after, (List.pairwise_cons.mp rest).2⟩)
      · rename_i different
        obtain ⟨strict, above⟩ := ih rest
        have below : c.1 < x.1 :=
          Int32.lt_of_le_of_ne first fun same => different (beq_iff_eq.mpr same)
        refine ⟨List.pairwise_cons.mpr ⟨?_, strict⟩, ?_⟩
        · intro y member
          exact Int32.lt_of_lt_of_le below (above y member)
        · refine List.forall_mem_cons.mpr ⟨Int32.le_refl c.1, ?_⟩
          intro y member
          exact Int32.le_trans first (above y member)

theorem key_trans (x y z : Int32 × Label) (first : decide (x.1 ≤ y.1) = true)
    (second : decide (y.1 ≤ z.1) = true) : decide (x.1 ≤ z.1) = true :=
  decide_eq_true (Int32.le_trans (of_decide_eq_true first) (of_decide_eq_true second))

theorem key_total (x y : Int32 × Label) : (decide (x.1 ≤ y.1) || decide (y.1 ≤ x.1)) = true := by
  rw [Bool.or_eq_true, decide_eq_true_eq, decide_eq_true_eq]
  exact Int32.le_total x.1 y.1

/-- The keys of a switch grow from case to case. -/
theorem pairwise_sortCases (cases : List (Int32 × Label)) :
    (sortCases cases).Pairwise fun x y => x.1 < y.1 := by
  have sorted : (cases.mergeSort fun c d => decide (c.1 ≤ d.1)).Pairwise fun x y => x.1 ≤ y.1 :=
    (List.pairwise_mergeSort key_trans key_total cases).imp of_decide_eq_true
  unfold sortCases
  split
  · exact .nil
  · rename_i c cs same
    rw [same] at sorted
    exact (pairwise_dropRepeats sorted).1

theorem writable_switchOver (default : Label) (cases : List (Int32 × Label))
    (locals : Array LocalInfo) : (switchOver default cases).Writable locals :=
  pairwise_sortCases cases

end Instruction

/-- A draft as a builder leaves it. -/
structure Draft.Emitted (d : Draft) : Prop where
  reachable : d.Reachable
  writable : d.Writable

theorem Draft.Emitted.createLocal {d : Draft} (h : d.Emitted) (name : Option String)
    (type : FieldType) (slot : Option UInt16) : (d.createLocal name type slot).2.Emitted :=
  ⟨.createLocal name type slot h.reachable, h.writable.createLocal name type slot⟩

theorem Draft.Emitted.resolve {d : Draft} (h : d.Emitted) (pool : Pool) :
    (d.resolve pool).2.Emitted :=
  ⟨.resolve pool h.reachable, h.writable.resolve h.reachable.valid pool⟩

namespace Emit

variable {α β : Type} {P : Draft → Prop} {Q : α → Draft → Prop} {R : β → Draft → Prop}

/-- On a draft that a builder left and that has the first property, an operation leaves one again,
and the second property holds of the outcome if there is one. -/
def Ensures (P : Draft → Prop) (x : Emit α) (Q : α → Draft → Prop) : Prop :=
  ∀ ws, ws.builder.draft.Emitted → P ws.builder.draft →
    (x ws).2.builder.draft.Emitted ∧ ∀ a, (x ws).1 = .ok a → Q a (x ws).2.builder.draft

def Safe (x : Emit α) : Prop := Ensures (fun _ => True) x fun _ _ => True

namespace Ensures

theorem pure {a : α} : Ensures (Q a) (pure a) Q := by
  intro ws emitted before
  refine ⟨emitted, ?_⟩
  rintro _ ⟨⟩
  exact before

theorem bind {x : Emit α} {f : α → Emit β} (first : Ensures P x Q)
    (later : ∀ a, Ensures (Q a) (f a) R) : Ensures P (x >>= f) R := by
  intro ws emitted before
  obtain ⟨left, result⟩ := first ws emitted before
  rw [run_bind]
  cases ran : x ws with
  | mk r ws' =>
      rw [ran] at left result
      cases r with
      | ok a => exact later a ws' left (result a rfl)
      | error fault => exact ⟨left, by rintro _ ⟨⟩⟩

theorem weaken {x : Emit α} {P' : Draft → Prop} {Q' : α → Draft → Prop} (h : Ensures P x Q)
    (before : ∀ d, P' d → P d) (after : ∀ a d, Q a d → Q' a d) : Ensures P' x Q' := by
  intro ws emitted holds
  obtain ⟨left, result⟩ := h ws emitted (before _ holds)
  exact ⟨left, fun a ok => after a _ (result a ok)⟩

theorem interning {x : Interning α} (h : ∀ pool d, P d → Q (x pool).1 d) :
    Ensures P (interning x) Q := by
  rintro ⟨pool, builder⟩ emitted before
  refine ⟨emitted, ?_⟩
  rintro _ ⟨⟩
  exact h pool builder.draft before

theorem editing {e : Edit α}
    (h : ∀ d : Draft, d.Emitted → P d →
      (e d).2.Emitted ∧ ∀ a, (e d).1 = .ok a → Q a (e d).2) : Ensures P (editing e) Q := by
  rintro ⟨pool, draft, owner, receiver, parameters⟩ emitted before
  exact h draft emitted before

theorem localInfo (v : Local) :
    Ensures P (localInfo v) fun info d => P d ∧ d.locals[v.index]? = some info := by
  intro ws emitted before
  refine ⟨emitted, ?_⟩
  intro info found
  exact ⟨before, (Draft.localInfo_eq_ok.mp found).2⟩

theorem fail {fault : Fault} : Ensures P (fail fault : Emit α) Q := by
  intro ws emitted before
  exact ⟨emitted, by rintro _ ⟨⟩⟩

theorem push {i : Instruction} :
    Ensures (fun d => i.Writable d.locals) (push i) fun _ _ => True := by
  refine editing fun d emitted new => ⟨?_, fun _ _ => trivial⟩
  rw [run_discard]
  exact ⟨.push i emitted.reachable, emitted.writable.push new⟩

end Ensures

theorem safe_push {i : Instruction} (h : ∀ locals, i.Writable locals) : Safe (push i) :=
  Ensures.push.weaken (fun d _ => h d.locals) fun _ _ h => h

theorem safe_simple {op : Opcode} (plain : Format.ofOpcode op = .plain) : Safe (simple op) :=
  safe_push fun _ => plain

theorem safe_branch {op : Opcode} (short : Format.ofOpcode op = .branch) (target : Label) :
    Safe (branch op target) :=
  safe_push fun _ => .inl short

theorem safe_fail (fault : Fault) : Safe (fail fault : Emit α) := .fail

theorem Safe.bind {x : Emit α} {f : α → Emit β} (first : Safe x) (later : ∀ a, Safe (f a)) :
    Safe (x >>= f) :=
  Ensures.bind first later

theorem safe_discard {x : Emit α} (h : Safe x) : Safe (discard x : Emit Unit) := by
  intro ws emitted before
  rw [run_discard]
  exact ⟨(h ws emitted before).1, fun _ _ => trivial⟩

theorem safe_interning (x : Interning α) : Safe (interning x) := .interning fun _ _ h => h

theorem safe_pure (a : α) : Safe (pure a) := Ensures.pure (Q := fun _ _ => True)

theorem Safe.silently {x : Emit Unit} (h : Safe x) : Safe (silently x) :=
  h.bind fun _ => safe_pure _

theorem safe_forM {xs : List β} {f : β → Emit Unit} (h : ∀ x ∈ xs, Safe (f x)) :
    Safe (xs.forM f) := by
  induction xs with
  | nil => exact safe_pure _
  | cons x xs ih =>
      rw [List.forall_mem_cons] at h
      exact h.1.bind fun _ => ih h.2

theorem safe_edit {e : Edit α} (h : ∀ d : Draft, d.Emitted → (e d).2.Emitted) :
    Safe (editing e) :=
  .editing fun d emitted _ => ⟨h d emitted, fun _ _ => trivial⟩

section Operands

/-- The ranges of opcodes without operands. -/
theorem plain_of_range (op : Opcode) :
    op ≤ Opcode.dconst_1 ∨ (Opcode.iaload ≤ op ∧ op ≤ Opcode.saload) ∨
        (Opcode.iastore ≤ op ∧ op ≤ Opcode.lxor) ∨ (Opcode.i2l ≤ op ∧ op ≤ Opcode.dcmpg) ∨
        (Opcode.ireturn ≤ op ∧ op ≤ Opcode.returnVoid) ∨ op = Opcode.arraylength ∨
        op = Opcode.athrow ∨ op = Opcode.monitorenter ∨ op = Opcode.monitorexit →
      Format.ofOpcode op = .plain := by
  revert op
  exact Opcode.forall_of_decide (by decide +kernel)

theorem plain_of_isMath {op : Opcode} (h : op.isMath = true) : Format.ofOpcode op = .plain := by
  apply plain_of_range
  simp only [Opcode.isMath, Bool.or_eq_true, Bool.and_eq_true, decide_eq_true_eq] at h
  rcases h with ⟨low, high⟩ | ⟨low, high⟩
  · exact .inr (.inr (.inl ⟨UInt8.le_trans (by decide) low, high⟩))
  · exact .inr (.inr (.inr (.inl ⟨UInt8.le_trans (by decide) low, high⟩)))

/-- Small numbers have an instruction each. -/
theorem plain_iconst {n : Int32} (low : -1 ≤ n) (high : n ≤ 5) :
    Format.ofOpcode (Opcode.iconst_0 + n.toInt8.toUInt8) = .plain := by
  have low' : -1 ≤ n.toInt := Int32.le_iff_toInt_le.mp low
  have high' : n.toInt ≤ 5 := Int32.le_iff_toInt_le.mp high
  rw [← Int32.ofInt_toInt n]
  generalize n.toInt = k at low' high'
  interval_cases k <;> exact plain_of_range _ (by decide)

theorem writable_loadInstruction (value : Value) (pool : Pool) (locals : Array LocalInfo) :
    ((loadInstruction value) pool).1.Writable locals := by
  cases value with
  | int n =>
      rw [loadInstruction]
      split
      · rename_i small
        rw [Bool.and_eq_true, decide_eq_true_eq, decide_eq_true_eq] at small
        exact plain_iconst small.1 small.2
      · split
        · rename_i byte
          rw [Bool.and_eq_true, decide_eq_true_eq, decide_eq_true_eq] at byte
          have low : -128 ≤ n.toInt := Int32.le_iff_toInt_le.mp byte.1
          have high : n.toInt ≤ 127 := Int32.le_iff_toInt_le.mp byte.2
          refine .inl ⟨rfl, ?_⟩
          rw [Int32.toInt_toInt16, Int.bmod_eq_of_le (by omega) (by omega)]
          exact ⟨low, high⟩
        · split
          · exact .inr (.inl rfl)
          · exact .inl rfl
  | long n =>
      rw [loadInstruction]
      split
      · exact plain_of_range _ (by decide)
      · split
        · exact plain_of_range _ (by decide)
        · exact .inr (.inl rfl)
  | float bits =>
      rw [loadInstruction]
      split
      · exact plain_of_range _ (by decide)
      · split
        · exact plain_of_range _ (by decide)
        · split
          · exact plain_of_range _ (by decide)
          · exact .inl rfl
  | double bits =>
      rw [loadInstruction]
      split
      · exact plain_of_range _ (by decide)
      · split
        · exact plain_of_range _ (by decide)
        · exact .inr (.inl rfl)
  | string text => exact .inl rfl
  | cls r => exact .inl rfl

theorem plain_arrayLoad (element : FieldType) :
    Format.ofOpcode element.arrayLoadOpcode = .plain := by
  cases element with
  | base b => cases b <;> exact plain_of_range _ (by decide)
  | ref r =>
      change Format.ofOpcode Opcode.aaload = .plain
      exact plain_of_range _ (by decide)

theorem plain_arrayStore (element : FieldType) :
    Format.ofOpcode element.arrayStoreOpcode = .plain := by
  cases element with
  | base b => cases b <;> exact plain_of_range _ (by decide)
  | ref r =>
      change Format.ofOpcode (Opcode.aaload + (Opcode.iastore - Opcode.iaload)) = .plain
      exact plain_of_range _ (by decide)

theorem plain_return (kind : LocalKind) : Format.ofOpcode kind.returnOpcode = .plain := by
  cases kind <;> exact plain_of_range _ (by decide)

theorem plain_stack (op : StackOp) : Format.ofOpcode op.opcode = .plain := by
  cases op <;> exact plain_of_range _ (by decide)

theorem plain_betweenKinds? {source target : LocalKind} {op : Opcode}
    (h : Conversion.betweenKinds? source target = some op) : Format.ofOpcode op = .plain := by
  cases source <;> cases target <;> cases h <;> exact plain_of_range _ (by decide)

theorem plain_narrow? {target : BaseType} {op : Opcode} (h : Conversion.narrow? target = some op) :
    Format.ofOpcode op = .plain := by
  cases target <;> cases h <;> exact plain_of_range _ (by decide)

theorem plain_conversion {source target : BaseType} {ops : List Opcode}
    (h : Conversion.opcodes? source target = some ops) :
    ∀ op ∈ ops, Format.ofOpcode op = .plain := by
  unfold Conversion.opcodes? at h
  dsimp only at h
  split at h
  · cases h
    exact List.forall_mem_nil _
  · split at h
    · cases h
    · split at h
      · rename_i narrow found
        have plain := plain_narrow? found
        split at h
        · split at h
          · cases h
            exact List.forall_mem_nil _
          · cases h
            exact List.forall_mem_singleton.mpr plain
        · obtain ⟨first, between, rfl⟩ := Option.map_eq_some_iff.mp h
          exact List.forall_mem_cons.mpr
            ⟨plain_betweenKinds? between, List.forall_mem_singleton.mpr plain⟩
      · split at h
        · cases h
          exact List.forall_mem_nil _
        · obtain ⟨op, between, rfl⟩ := Option.map_eq_some_iff.mp h
          exact List.forall_mem_singleton.mpr (plain_betweenKinds? between)

theorem branch_zero (c : Comparison) : Format.ofOpcode c.zeroOpcode = .branch := by
  cases c <;> decide

theorem branch_int (c : Comparison) : Format.ofOpcode c.intOpcode = .branch := by
  cases c <;> decide

theorem branch_reference {c : Comparison} {op : Opcode} (h : c.referenceOpcode = .ok op) :
    Format.ofOpcode op = .branch := by
  cases c <;> cases h <;> decide

theorem writable_invoke (kind : InvokeKind) (entry : ConstantRef) (adjustment : Int16)
    (slots : UInt8) (locals : Array LocalInfo) :
    (Instruction.invoke kind.opcode entry adjustment slots).Writable locals := by
  cases kind with
  | interface => exact .inr rfl
  | _ => exact .inl (by decide)

end Operands

section Operations

theorem safe_classOperand {op : Opcode} (format : Format.ofOpcode op = .cls) (r : RefType)
    (adjustment : Int16) : Safe (classOperand op r adjustment) :=
  (safe_interning _).bind fun _ => safe_push fun _ => .inr (.inr (.inr format))

theorem safe_field {static dynamic : Opcode} (forStatic : Format.ofOpcode static = .member)
    (forDynamic : Format.ofOpcode dynamic = .member) (owner : Option BinaryName) (name : String)
    (type : FieldType) (isStatic : Bool) (adjustment : Int) :
    Safe (field static dynamic owner name type isStatic adjustment) := by
  refine Safe.bind (fun ws emitted _ => ⟨emitted, fun _ _ => trivial⟩) fun self => ?_
  refine (safe_interning _).bind fun entry => ?_
  split
  · exact safe_push fun _ => .inr (.inr (.inl forStatic))
  · exact safe_push fun _ => .inr (.inr (.inl forDynamic))

theorem safe_invoke (kind : InvokeKind) (owner : Option RefType) (name : String)
    (descriptor : MethodDescriptor) (isInterface : Bool) :
    Safe (invoke kind owner name descriptor isInterface) := by
  unfold invoke
  dsimp only
  split
  · exact safe_fail _
  · refine Safe.bind (fun ws emitted _ => ⟨emitted, fun _ _ => trivial⟩) fun self => ?_
    exact (safe_interning _).bind fun entry => safe_push (writable_invoke kind entry _ _)

theorem safe_convert (source target : FieldType) (mode : ConvertMode) :
    Safe (convert source target mode) := by
  unfold convert
  split
  · split
    · split
      · rename_i ops found
        exact safe_forM fun op member => safe_simple (plain_conversion found op member)
      · exact safe_fail _
    · split
      · exact safe_invoke _ _ _ _ _
      · exact safe_fail _
  · exact safe_fail _

theorem safe_ifCompare (target : Label) (c : Comparison) (type : FieldType) :
    Safe (ifCompare target c type) := by
  unfold ifCompare
  dsimp only
  split
  · exact safe_branch (branch_int c) target
  · split
    · rename_i op found
      exact safe_branch (branch_reference found) target
    · exact safe_fail _
  · exact (safe_simple (plain_of_range _ (by decide))).bind fun _ => safe_branch (branch_zero c) target
  · exact (safe_simple (by split <;> exact plain_of_range _ (by decide))).bind fun _ =>
      safe_branch (branch_zero c) target
  · exact (safe_simple (by split <;> exact plain_of_range _ (by decide))).bind fun _ =>
      safe_branch (branch_zero c) target

theorem safe_newArray (element : FieldType) : Safe (newArray element) := by
  cases element with
  | base b => exact safe_push fun _ => .inr (.inr ⟨rfl, b.arrayCode, rfl⟩)
  | ref r => exact safe_classOperand (by decide) r 0

theorem safe_newMultiArray (r : RefType) (dimensions : UInt8) :
    Safe (newMultiArray r dimensions) := by
  unfold newMultiArray
  split
  · exact safe_fail _
  · exact (safe_interning _).bind fun _ => safe_push fun _ => trivial

theorem safe_createLocal (name : Option String) (type : FieldType) (slot : Option UInt16) :
    Safe (createLocal name type slot) := by
  have declared : Safe (editing fun d =>
      (.ok (d.createLocal name type slot).1, (d.createLocal name type slot).2)) :=
    safe_edit fun d emitted => emitted.createLocal name type slot
  have made := declared.bind fun v => safe_pure (Made.var v)
  refine Safe.bind (fun ws emitted _ => ⟨emitted, fun _ _ => trivial⟩) fun tracks => ?_
  dsimp only
  split
  · exact (safe_interning _).bind fun _ => made
  · exact made

theorem safe_exceptionHandler (start stop entry : Label) (catchType : Option RefType) :
    Safe (exceptionHandler start stop entry catchType) := by
  have guarded : ∀ type, Safe (editing (Draft.addHandler ⟨start, stop, entry, type⟩)) :=
    fun type => safe_edit fun d emitted =>
      ⟨.addHandler _ emitted.reachable, emitted.writable.addHandler _⟩
  unfold exceptionHandler
  dsimp only
  split
  · exact ((safe_interning _).bind fun _ => safe_pure _).bind guarded
  · exact (safe_pure none).bind guarded

theorem safe_lineNumber (line : UInt16) : Safe (lineNumber line) := by
  unfold lineNumber
  refine Safe.bind (safe_discard (safe_interning _)) fun _ => safe_edit fun d emitted => ?_
  exact ⟨.markLine line emitted.reachable, emitted.writable.markLine line⟩

theorem safe_loadConstant (value : Value) : Safe (loadConstant value) := by
  refine Ensures.bind (Q := fun i d => i.Writable d.locals) (.interning fun pool d _ => ?_)
    fun i => .push
  exact writable_loadInstruction value pool d.locals

/-- Access to a local by the kind that it has. -/
theorem safe_access {v : Local} {f : LocalKind → Instruction}
    (h : ∀ (locals : Array LocalInfo) (info : LocalInfo), locals[v.index]? = some info →
      (f info.kind).Writable locals) : Safe (do push (f (← localInfo v).kind)) :=
  Ensures.bind (.localInfo v) fun info =>
    Ensures.push.weaken (fun d found => h d.locals info found.2) fun _ _ h => h

theorem safe_localInfo (v : Local) : Safe (localInfo v) :=
  (Ensures.localInfo v).weaken (fun _ h => h) fun _ _ _ => trivial

theorem safe_increment (v : Local) (amount : Int16) : Safe (increment v amount) := by
  refine (safe_localInfo v).bind fun info => ?_
  split
  · exact safe_fail _
  · exact safe_push fun _ => trivial

theorem safe_perform (op : Op Label Local) : Safe (perform op) := by
  cases op with
  | createLocal name type => exact safe_createLocal name type none
  | createLocalAt name type slot => exact safe_createLocal name type (some slot)
  | createLabel =>
      exact safe_edit fun d emitted =>
        ⟨.createLabel emitted.reachable, emitted.writable.allocate (i := .label) trivial⟩
  | placeLabel label =>
      exact (safe_edit fun d emitted =>
        ⟨.placeLabel label emitted.reachable, emitted.writable.placeLabel label⟩).silently
  | exceptionHandler start stop entry catchType =>
      exact (safe_exceptionHandler start stop entry catchType).silently
  | lineNumber line => exact (safe_lineNumber line).silently
  | loadConstant value => exact (safe_loadConstant value).silently
  | loadLocal v =>
      exact (safe_access (f := .load v) fun _ info found => ⟨info, found, rfl⟩).silently
  | storeLocal v =>
      exact (safe_access (f := (.store v · false)) fun _ info found => ⟨info, found, rfl⟩).silently
  | increment v amount => exact (safe_increment v amount).silently
  | arrayLoad element => exact (safe_simple (plain_arrayLoad element)).silently
  | arrayStore element => exact (safe_simple (plain_arrayStore element)).silently
  | getField owner name type isStatic =>
      exact (safe_field (by decide) (by decide) owner name type isStatic _).silently
  | putField owner name type isStatic =>
      exact (safe_field (by decide) (by decide) owner name type isStatic _).silently
  | invoke kind owner name descriptor isInterface =>
      exact (safe_invoke kind owner name descriptor isInterface).silently
  | newObject name => exact (safe_classOperand (by decide) _ 1).silently
  | newArray element => exact (safe_newArray element).silently
  | newMultiArray r dimensions => exact (safe_newMultiArray r dimensions).silently
  | checkCast r => exact (safe_classOperand (by decide) r 0).silently
  | instanceOf r => exact (safe_classOperand (by decide) r 0).silently
  | math opcode =>
      refine Safe.silently ?_
      split
      · rename_i math
        exact safe_simple (plain_of_isMath math)
      · exact safe_fail _
  | convert source target mode => exact (safe_convert source target mode).silently
  | stack op => exact (safe_simple (plain_stack op)).silently
  | branch target => exact (safe_branch (by decide) target).silently
  | ifNull target isNull =>
      exact (safe_branch (by cases isNull <;> decide) target).silently
  | ifZero target c => exact (safe_branch (branch_zero c) target).silently
  | ifCompare target c type => exact (safe_ifCompare target c type).silently
  | switch default cases =>
      exact (safe_push (Instruction.writable_switchOver default cases)).silently
  | jsr target => exact (safe_branch (by decide) target).silently
  | ret v =>
      exact (Safe.bind (safe_discard (safe_localInfo v)) fun _ =>
        safe_push (i := .ret v) fun _ => trivial).silently
  | returnValue type =>
      cases type with
      | none => exact (safe_simple (plain_of_range _ (by decide))).silently
      | some type => exact (safe_simple (plain_return _)).silently
  | _ => exact (safe_simple (plain_of_range _ (by decide))).silently

theorem safe_loadReceiver : Safe loadReceiver := by
  intro ws emitted before
  unfold loadReceiver
  split
  · exact safe_perform _ ws emitted before
  · exact ⟨emitted, fun _ _ => trivial⟩

theorem safe_trackLocals : Safe trackLocals := by
  refine Safe.bind (safe_edit fun d emitted => ?_) fun _ => ?_
  · exact ⟨.trackLocals true emitted.reachable,
      emitted.writable.of_eq (fun _ => rfl) (.refl _)⟩
  · exact (safe_edit fun d emitted => emitted).bind fun locals => safe_interning _

end Operations

end Emit

namespace Builder

theorem emitted_create {id : Nat} {owner : BinaryName} {descriptor : MethodDescriptor}
    {isStatic : Bool} {b : Builder} (created : create id owner descriptor isStatic = .ok b) :
    b.draft.Emitted := by
  refine create_preserves created ?_ (fun d name type slot h => h.createLocal name type slot) ?_
  · refine ⟨.empty id, fun n => ?_⟩
    rw [Draft.instructionAt_eq, Draft.empty, Array.getElem?_empty]
    trivial
  · intro d slots h
    exact ⟨.reserveSlots slots h.reachable, h.writable.of_eq (fun _ => rfl) (.refl _)⟩

/-- Builders as they come about: from a method's descriptor by operations, in any order and whether
or not these succeed, with any pool. A builder may be used further after it was resolved. -/
inductive Built : Builder → Prop
  | create {id : Nat} {owner : BinaryName} {descriptor : MethodDescriptor} {isStatic : Bool}
      {b : Builder} : create id owner descriptor isStatic = .ok b → Built b
  | perform {b : Builder} (pool : Pool) (op : Op Label Local) :
      Built b → Built (Emit.perform op ⟨pool, b⟩).2.builder
  | loadReceiver {b : Builder} (pool : Pool) :
      Built b → Built (Emit.loadReceiver ⟨pool, b⟩).2.builder
  | trackLocals {b : Builder} (pool : Pool) :
      Built b → Built (Emit.trackLocals ⟨pool, b⟩).2.builder
  | resolve {b : Builder} (pool : Pool) :
      Built b → Built { b with draft := (b.draft.resolve pool).2 }

theorem Built.emitted {b : Builder} (built : b.Built) : b.draft.Emitted := by
  induction built with
  | create created => exact emitted_create created
  | perform pool op _ ih => exact (Emit.safe_perform op ⟨pool, _⟩ ih trivial).1
  | loadReceiver pool _ ih => exact (Emit.safe_loadReceiver ⟨pool, _⟩ ih trivial).1
  | trackLocals pool _ ih => exact (Emit.safe_trackLocals ⟨pool, _⟩ ih trivial).1
  | resolve pool _ ih => exact ih.resolve pool

end Builder

end JvmAssembly
