import Mathlib
import JvmAssembly.Proofs.Disassembly.Correspondence
import JvmAssembly.Proofs.Draft.Reachable

/-!
Drafts all of whose instructions the decoder can tell from their bytes. Edits keep this as long as
they bring in nothing else, and resolving keeps it in any case.
-/
namespace JvmAssembly

/-- The locals that were there have the kinds that they had. -/
def KeepsKinds (locals locals' : Array LocalInfo) : Prop :=
  ∀ (v : Nat) (info : LocalInfo), locals[v]? = some info →
    ∃ info', locals'[v]? = some info' ∧ info'.kind = info.kind

theorem KeepsKinds.refl (locals : Array LocalInfo) : KeepsKinds locals locals :=
  fun _ info found => ⟨info, found, rfl⟩

theorem KeepsKinds.push (locals : Array LocalInfo) (info : LocalInfo) :
    KeepsKinds locals (locals.push info) := by
  intro v old found
  refine ⟨old, ?_, rfl⟩
  have inside := (Array.getElem?_eq_some_iff.mp found).1
  rw [Array.getElem?_push_lt inside, ← Array.getElem?_eq_getElem inside, found]

open Allocation in
theorem KeepsKinds.reslotted {locals locals' : Array LocalInfo} (h : Reslotted locals locals') :
    KeepsKinds locals locals' := by
  intro v info found
  obtain ⟨slot, stored, -⟩ := h.info v info found
  exact ⟨_, stored, rfl⟩

namespace Instruction

theorem Writable.mono {locals locals' : Array LocalInfo} (kinds : KeepsKinds locals locals')
    {x : Instruction} (h : x.Writable locals) : x.Writable locals' := by
  have access : ∀ (v : Local) (kind : LocalKind),
      (∃ info, locals[v.index]? = some info ∧ kind = info.kind) →
      ∃ info, locals'[v.index]? = some info ∧ kind = info.kind := by
    rintro v kind ⟨info, found, rfl⟩
    obtain ⟨info', stored, same⟩ := kinds v.index info found
    exact ⟨info', stored, same.symm⟩
  cases x with
  | load v kind => exact access v kind h
  | store v kind _ => exact access v kind h
  | _ => exact h

theorem Writable.marked {locals : Array LocalInfo} {x : Instruction} (h : x.Writable locals)
    (liveness : Liveness) (i : Nat) : (x.marked liveness i).Writable locals := by
  cases x <;> exact h

end Instruction

theorem Format.ofOpcode_farForm? {op far : Opcode} (h : op.farForm? = some far) :
    Format.ofOpcode far = .farBranch := by
  have all := Opcode.forall_of_all
    (p := fun op => op.farForm?.all fun far => Format.ofOpcode far == .farBranch)
    (by decide +kernel) op
  rw [h] at all
  exact beq_iff_eq.mp all

theorem Format.ofOpcode_invert? {op inverted : Opcode} (h : op.invert? = some inverted) :
    Format.ofOpcode inverted = .branch := by
  have all := Opcode.forall_of_all
    (p := fun op => op.invert?.all fun inverted => Format.ofOpcode inverted == .branch)
    (by decide +kernel) op
  rw [h] at all
  exact beq_iff_eq.mp all

namespace Draft

def Writable (d : Draft) : Prop :=
  ∀ n, (d.instructionAt n).Writable d.locals

variable {d d' : Draft}

theorem Writable.of_eq (h : d.Writable) (same : ∀ n, d'.instructionAt n = d.instructionAt n)
    (kinds : KeepsKinds d.locals d'.locals) : d'.Writable := by
  intro n
  rw [same n]
  exact (h n).mono kinds

theorem Writable.allocate (h : d.Writable) {i : Instruction} (new : i.Writable d.locals) :
    (d.allocate i).Writable := by
  intro n
  by_cases last : n = d.nodes.size
  · rw [last, instructionAt_allocate_size]
    exact new
  · rw [instructionAt_allocate d i last]
    exact h n

theorem Writable.placeLast (h : d.Writable) (node : NodeId) : (d.placeLast node).Writable :=
  h.of_eq (instructionAt_rearrange d node true _) (.refl _)

theorem Writable.placeLabel (h : d.Writable) (label : Label) : (placeLabel label d).2.Writable := by
  unfold Draft.placeLabel
  split
  · exact h
  · exact h.placeLast label.node

theorem Writable.push (h : d.Writable) {i : Instruction} (new : i.Writable d.locals) :
    (push i d).2.Writable := by
  unfold Draft.push
  split
  · exact h
  · exact (h.allocate new).placeLast _

theorem Writable.createLocal (h : d.Writable) (name : Option String) (type : FieldType)
    (slot : Option UInt16) : (d.createLocal name type slot).2.Writable :=
  h.of_eq (fun _ => rfl) (.push _ _)

theorem Writable.addHandler (h : d.Writable) (x : Handler) : (addHandler x d).2.Writable := by
  unfold Draft.addHandler
  split
  · exact h
  · exact h.of_eq (fun _ => rfl) (.refl _)

theorem Writable.markLine (h : d.Writable) (line : UInt16) : (d.markLine line).Writable :=
  (Writable.placeLast (h.allocate (i := .label) trivial) d.nodes.size).of_eq (fun _ => rfl)
    (.refl _)

theorem Writable.markDeadStores (h : d.Writable) (nodup : d.order.toList.Nodup)
    (liveness : Liveness) : (d.markDeadStores liveness).Writable := by
  have locals : (d.markDeadStores liveness).locals = d.locals := by rw [markDeadStores_eq]
  intro n
  rw [locals]
  rcases instructionAt_markDeadStores_or liveness nodup n with same | ⟨i, marked⟩
  · rw [same]
    exact h n
  · rw [marked]
    exact (h n).marked liveness i

theorem locals_widenCondition (node : NodeId) (inverted : Opcode) (target : Label) :
    (d.widenCondition node inverted target).locals = d.locals := by
  unfold widenCondition placeAfter
  dsimp only
  split <;> split <;> rfl

theorem Writable.widenCondition (h : d.Writable) {node : Nat} (inside : node < d.nodes.size)
    {op inverted : Opcode} (opposite : op.invert? = some inverted) (target : Label) :
    (d.widenCondition node inverted target).Writable := by
  intro (n : Nat)
  rw [locals_widenCondition]
  by_cases old : n < d.nodes.size
  · by_cases same : n = node
    · rw [same, widenCondition.atNode inside]
      exact .inl (Format.ofOpcode_invert? opposite)
    · rw [widenCondition.atOther old same]
      exact h n
  · rcases Nat.lt_or_ge n (d.nodes.size + 2) with new | beyond
    · rcases show n = d.nodes.size ∨ n = d.nodes.size + 1 by omega with rfl | rfl
      · rw [widenCondition.atHop inside]
        trivial
      · rw [widenCondition.atJump inside]
        exact .inr (by decide)
    · rw [instructionAt_eq, Array.getElem?_eq_none (widenCondition.size.symm ▸ beyond)]
      trivial

theorem Widens.writable (w : Widens d d') (valid : d.Valid) (h : d.Writable) : d'.Writable := by
  cases w with
  | @jump node op far target member found form =>
      intro n
      by_cases same : n = node
      · rw [same, instructionAt_setInstruction d _ (valid.inside member)]
        exact .inr (Format.ofOpcode_farForm? form)
      · rw [instructionAt_setInstruction_ne d _ same]
        exact h n
  | condition member found form opposite => exact h.widenCondition (valid.inside member) opposite _

open Layout.Pass in
theorem Writable.widened (h : d.Writable) (valid : d.Valid) (w : Widened d d') : d'.Writable := by
  induction w with
  | refl => exact h
  | tail first last ih => exact last.writable (valid_widened valid first) ih

theorem Writable.allocateSlots (h : d.Writable) {liveness : Liveness}
    {result : Except Fault UInt16} (allocated : allocateSlots liveness d = (result, d')) :
    d'.Writable := by
  obtain ⟨same, moved⟩ := allocateSlots_reslotted allocated
  refine h.of_eq (fun n => ?_) (.reslotted moved)
  rw [same]
  rfl

theorem Writable.resolve (h : d.Writable) (valid : d.Valid) (pool : Pool) :
    (d.resolve pool).2.Writable := by
  have both : (d.resolve pool).2.Valid ∧ (d.resolve pool).2.Writable := by
    refine resolve_induction (P := fun x => x.Valid ∧ x.Writable) pool ⟨valid, h⟩ ?_ ?_ ?_
    · intro liveness result slotted allocated
      exact ⟨valid.allocateSlots allocated, h.allocateSlots allocated⟩
    · rintro liveness x ⟨before, writable⟩
      exact ⟨before.markDeadStores liveness, writable.markDeadStores before.nodup liveness⟩
    · rintro x result laid ⟨before, writable⟩ layout
      have wide := Layout.layout_widens before layout
      exact ⟨Layout.Pass.valid_widened before wide, writable.widened before wide⟩
  exact both.2

end Draft

end JvmAssembly
