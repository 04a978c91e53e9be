import Mathlib
import JvmAssembly.Proofs.Disassembly.Renewal
import JvmAssembly.Proofs.Draft.Mirror
import JvmAssembly.Proofs.Draft.Stability

/-!
A draft that was laid out and its counterpart: the same instructions at the same offsets, in terms
of labels and locals of its own. Discarded stores are pops in the counterpart, and it has labels
only where something jumps to. Stack depths and the stores that are read later are those of the
draft.
-/
namespace JvmAssembly

theorem Instruction.isLabel_of_target {x : Instruction} {target : Label}
    (member : target ∈ x.targets) : x.isLabel = false := by
  cases x with
  | label => cases member
  | _ => rfl

/-- Behind a node comes the code of the next one. -/
theorem Written.next {d : Draft} {pool : Pool} {offsets : Offsets} {start : Nat}
    {nodes : List NodeId} {code : Bytes} (written : Written d pool offsets start nodes code)
    {i : Nat} {n : NodeId} (here : nodes[i]? = some n) :
    ∃ offset bytes, offsets.of? n = some offset ∧
      d.encode pool offsets offset (d.instructionAt n) = .ok (.bytes bytes true) ∧
      ((nodes[i + 1]?).bind offsets.of?).getD (start + code.length) = offset + bytes.length := by
  induction written generalizing i with
  | nil => cases here
  | @cons offset node rest bytes more known encoded later ih =>
      rw [List.length_append, ← Nat.add_assoc]
      cases i with
      | zero =>
          cases here
          exact ⟨offset, bytes, known, encoded, later.offsets_le.1⟩
      | succ i => exact ih here

namespace Layout.Settled

variable {pool : Pool} {d : Draft} {l : Layout} (settled : Settled pool d l)

include settled

theorem offsetAt_zero : l.offsetAt d.order.toList 0 = 0 := by
  have first := settled.written.offsets_le.1
  rwa [Nat.zero_add] at first

/-- The bytes of the node at a position reach up to the next position. -/
theorem bytes_at {i : Nat} {n : NodeId} (here : d.order.toList[i]? = some n) :
    ∃ bytes, l.offsets.of? n = some (l.offsetAt d.order.toList i) ∧
      d.encode pool l.offsets (l.offsetAt d.order.toList i) (d.instructionAt n) =
        .ok (.bytes bytes true) ∧
      l.offsetAt d.order.toList (i + 1) = l.offsetAt d.order.toList i + bytes.length := by
  obtain ⟨offset, bytes, known, encoded, next⟩ := settled.written.next here
  have at_i : l.offsetAt d.order.toList i = offset := by
    rw [offsetAt, here, Option.bind_some, known, Option.getD_some]
  rw [Nat.zero_add] at next
  rw [at_i]
  exact ⟨bytes, known, encoded, next⟩

end Layout.Settled

/-- The one draft is laid out as the other, with instructions in terms of its own labels and locals
and no labels but at offsets of the other. -/
structure Counterpart (pool : Pool) (d : Draft) (l : Layout) (d' : Draft) (l' : Layout)
    (label : Label → Label) (var : Local → Local) : Prop where
  settled : Layout.Settled pool d l
  settled' : Layout.Settled pool d' l'
  bare : d.handlers = #[]
  bare' : d'.handlers = #[]
  writable (n : NodeId) : (d.instructionAt n).Writable d.locals
  ordinary (n : NodeId) : (d.instructionAt n).isSubroutineCall = false
  stays (n : NodeId) (v : Local) : d.instructionAt n ≠ .ret v
  index (v : Local) : (var v).index = v.index
  slots (v : Local) (slot : UInt16) (given : d.slotOf v = .ok slot) : d'.slotOf (var v) = .ok slot
  renewed {n : NodeId} (member : n ∈ d.order.toList) (solid : (d.instructionAt n).isLabel = false) :
    ∃ m ∈ d'.order.toList, d'.instructionAt m = (d.instructionAt n).renewed label var ∧
      l'.offsets.of? m = l.offsets.of? n
  origin {m : NodeId} (member : m ∈ d'.order.toList) :
    ∃ n ∈ d.order.toList, l'.offsets.of? m = l.offsets.of? n ∧
      ((d'.instructionAt m).isLabel = false →
        d'.instructionAt m = (d.instructionAt n).renewed label var)
  targets {n : NodeId} (member : n ∈ d.order.toList) {target : Label}
    (target_mem : target ∈ (d.instructionAt n).targets) :
    (label target).draft = d'.id ∧ (label target).node ∈ d'.order.toList ∧
      l'.offsets.of? (label target).node = l.offsets.of? target.node

namespace Counterpart

open Draft

variable {pool : Pool} {d d' : Draft} {l l' : Layout} {label : Label → Label} {var : Local → Local}
  (c : Counterpart pool d l d' l' label var) {i j : Nat} {n m : NodeId}

include c

theorem offsetAt_eq (here : d.order.toList[i]? = some n) (there : d'.order.toList[j]? = some m)
    (same : l'.offsets.of? m = l.offsets.of? n) :
    l'.offsetAt d'.order.toList j = l.offsetAt d.order.toList i := by
  obtain ⟨_, known, -⟩ := c.settled.bytes_at here
  obtain ⟨_, known', -⟩ := c.settled'.bytes_at there
  rw [same, known] at known'
  exact (Option.some.inj known').symm

/-- An instruction and its counterpart have the same bytes, so they end at one offset. -/
theorem offsetAt_succ_eq (here : d.order.toList[i]? = some n)
    (there : d'.order.toList[j]? = some m)
    (again : d'.instructionAt m = (d.instructionAt n).renewed label var)
    (same : l'.offsets.of? m = l.offsets.of? n) :
    l'.offsetAt d'.order.toList (j + 1) = l.offsetAt d.order.toList (i + 1) := by
  obtain ⟨bytes, -, encoded, next⟩ := c.settled.bytes_at here
  obtain ⟨bytes', -, encoded', next'⟩ := c.settled'.bytes_at there
  have both := encode_renewed (c.writable n) encoded
    (fun target member => (c.targets (List.mem_of_getElem? here) member).2.2) c.slots
  rw [again, c.offsetAt_eq here there same, both] at encoded'
  cases encoded'
  rw [next, next', c.offsetAt_eq here there same]

theorem matches_renewed (here : d.order.toList[i]? = some n) (there : d'.order.toList[j]? = some m)
    (solid : (d.instructionAt n).isLabel = false)
    (again : d'.instructionAt m = (d.instructionAt n).renewed label var)
    (same : l'.offsets.of? m = l.offsets.of? n) :
    Matches d d' (l.offsetAt d.order.toList) (l'.offsetAt d'.order.toList) i j (d.instructionAt n)
      (d'.instructionAt m) where
  here := c.offsetAt_eq here there same
  next := c.offsetAt_succ_eq here there again same
  solid := by rw [again, Instruction.isLabel_renewed, solid]
  ordinary := by rw [again, Instruction.isSubroutineCall_renewed, c.ordinary]
  adjustment := by rw [again, Instruction.adjustment_renewed]
  falls := by rw [again, Instruction.fallsThrough_renewed]
  targets := by
    rintro target k member ⟨-, placed⟩
    obtain ⟨own, inside, known⟩ := c.targets (List.mem_of_getElem? here) member
    obtain ⟨k', placed'⟩ := List.mem_iff_getElem?.mp inside
    refine ⟨label target, ?_, k', ⟨own, placed'⟩, c.offsetAt_eq placed placed' known⟩
    rw [again]
    exact Instruction.target_renewed (c.writable n) member

theorem matches_origin (here : d.order.toList[i]? = some n) (there : d'.order.toList[j]? = some m)
    (solid : (d'.instructionAt m).isLabel = false)
    (again : d'.instructionAt m = (d.instructionAt n).renewed label var)
    (same : l'.offsets.of? m = l.offsets.of? n) :
    Matches d' d (l'.offsetAt d'.order.toList) (l.offsetAt d.order.toList) j i (d'.instructionAt m)
      (d.instructionAt n) where
  here := (c.offsetAt_eq here there same).symm
  next := (c.offsetAt_succ_eq here there again same).symm
  solid := by rw [← solid, again, Instruction.isLabel_renewed]
  ordinary := c.ordinary n
  adjustment := by rw [again, Instruction.adjustment_renewed]
  falls := by rw [again, Instruction.fallsThrough_renewed]
  targets := by
    rintro target k member ⟨-, placed⟩
    rw [again] at member
    obtain ⟨old, among, rfl⟩ := Instruction.target_of_renewed member
    have inside := c.settled.targets (List.mem_of_getElem? here) among
    obtain ⟨k', placed'⟩ := List.mem_iff_getElem?.mp inside
    have own := (c.settled.valid.owns n).targets old among
    have known := (c.targets (List.mem_of_getElem? here) among).2.2
    exact ⟨old, among, k', ⟨own.1, placed'⟩, (c.offsetAt_eq placed' placed known).symm⟩

theorem sustains_renewed (x : Instruction) : x.Sustains (x.renewed label var) where
  uses {v} read := ⟨var v, by rw [Instruction.uses_renewed, read]; rfl, c.index v⟩
  defines {w} written := by
    obtain ⟨v, defined, rfl⟩ := Instruction.defines_renewed written
    exact ⟨v, defined, (c.index v).symm⟩

/-- Every instruction of the draft has its like in the counterpart. -/
theorem forth : Mirrors Instruction.Sustains d d' (l.offsetAt d.order.toList)
    (l'.offsetAt d'.order.toList) where
  addressed := c.settled.addressed
  addressed' := c.settled'.addressed
  start := c.settled'.offsetAt_zero.trans c.settled.offsetAt_zero.symm
  bare := c.bare
  instruction {i x} found solid := by
    obtain ⟨n, here, rfl⟩ := Option.map_eq_some_iff.mp found
    obtain ⟨m, member, again, same⟩ := c.renewed (List.mem_of_getElem? here) solid
    obtain ⟨j, there⟩ := List.mem_iff_getElem?.mp member
    refine ⟨j, d'.instructionAt m, Option.map_eq_some_iff.mpr ⟨m, there, rfl⟩, ?_,
      c.matches_renewed here there solid again same⟩
    rw [again]
    exact c.sustains_renewed _

/-- Every instruction of the counterpart has its like in the draft. -/
theorem back : Mirrors (fun _ _ => True) d' d (l'.offsetAt d'.order.toList)
    (l.offsetAt d.order.toList) where
  addressed := c.settled'.addressed
  addressed' := c.settled.addressed
  start := c.settled.offsetAt_zero.trans c.settled'.offsetAt_zero.symm
  bare := c.bare'
  instruction {j y} found solid := by
    obtain ⟨m, there, rfl⟩ := Option.map_eq_some_iff.mp found
    obtain ⟨n, member, same, again⟩ := c.origin (List.mem_of_getElem? there)
    obtain ⟨i, here⟩ := List.mem_iff_getElem?.mp member
    exact ⟨i, d.instructionAt n, Option.map_eq_some_iff.mpr ⟨n, here, rfl⟩, trivial,
      c.matches_origin here there solid (again solid) same⟩

theorem callFree : d.CallFree := by
  intro i x found
  obtain ⟨n, -, rfl⟩ := Option.map_eq_some_iff.mp found
  exact c.ordinary n

theorem callFree' : d'.CallFree := by
  intro j y found
  by_cases label : y = .label
  · rw [label]
    rfl
  · obtain ⟨m, there, rfl⟩ := Option.map_eq_some_iff.mp found
    obtain ⟨n, -, -, again⟩ := c.origin (List.mem_of_getElem? there)
    rw [again (Instruction.isLabel_eq_false _ label), Instruction.isSubroutineCall_renewed,
      c.ordinary]

theorem not_returns (j : Nat) : ¬ d'.Returns j := by
  rintro ⟨v, found⟩
  obtain ⟨m, there, ret⟩ := Option.map_eq_some_iff.mp found
  obtain ⟨n, -, -, again⟩ := c.origin (List.mem_of_getElem? there)
  have same := again (by rw [ret]; rfl)
  rw [ret] at same
  cases x : d.instructionAt n with
  | ret w => exact c.stays n w x
  | store w kind discard =>
      rw [x] at same
      cases discard <;> cases same
  | _ =>
      rw [x] at same
      cases same

/-- The counterpart is as deep as the draft. -/
theorem balanced {top : Int} (balanced : d.Balanced top) : d'.Balanced top := by
  refine balanced.mirrored c.forth c.back ?_ c.not_returns
  intro j inside
  have there := List.getElem?_eq_getElem inside
  obtain ⟨n, member, same, -⟩ := c.origin (List.mem_of_getElem? there)
  obtain ⟨i, here⟩ := List.mem_iff_getElem?.mp member
  have within : i < d.order.toList.length := by
    by_contra past
    rw [List.getElem?_eq_none (Nat.le_of_not_lt past)] at here
    cases here
  exact ⟨i, within, (c.offsetAt_eq here there same).symm⟩

theorem labelsPlaced : d'.LabelsPlaced where
  targets := by
    intro m member target among
    obtain ⟨n, member', -, again⟩ := c.origin member
    rw [again (Instruction.isLabel_of_target among)] at among
    obtain ⟨old, among', rfl⟩ := Instruction.target_of_renewed among
    obtain ⟨own, placed, -⟩ := c.targets member' among'
    rw [isPlaced, own, beq_self_eq_true, Bool.true_and]
    exact (c.settled'.valid.placed _).mp placed
  handlers := by
    intro h member
    rw [c.bare'] at member
    exact absurd member (Array.not_mem_empty _)

/-- A store of the counterpart is one of the draft that is not discarded, and what it writes is read
later if it is in the draft. -/
theorem store_origin {v : Local} {kind : LocalKind} {discard : Bool}
    (found : d'.at? j = some (.store v kind discard)) :
    discard = false ∧ ∃ i w, d.at? i = some (.store w kind false) ∧ v.index = w.index ∧
      (d.LiveOut w.index i → d'.LiveOut v.index j) := by
  obtain ⟨m, there, stored⟩ := Option.map_eq_some_iff.mp found
  obtain ⟨n, member, same, again⟩ := c.origin (List.mem_of_getElem? there)
  obtain ⟨i, here⟩ := List.mem_iff_getElem?.mp member
  have solid : (d'.instructionAt m).isLabel = false := by rw [stored]; rfl
  have renewed := again solid
  rw [stored] at renewed
  cases x : d.instructionAt n with
  | store w kind' discard' =>
      rw [x] at renewed
      cases discard' with
      | true => cases renewed
      | false =>
          cases renewed
          have found' : d.at? i = some (.store w kind false) :=
            Option.map_eq_some_iff.mpr ⟨n, here, x⟩
          refine ⟨rfl, i, w, found', c.index w, fun live => ?_⟩
          have solid' : (d.instructionAt n).isLabel = false := by rw [x]; rfl
          have like := c.matches_renewed here there solid' (again solid) same
          rw [c.index]
          exact c.forth.liveOut c.callFree (Option.map_eq_some_iff.mpr ⟨n, here, rfl⟩)
            (Option.map_eq_some_iff.mpr ⟨m, there, rfl⟩) like live
  | _ =>
      rw [x] at renewed
      cases renewed

end Counterpart

end JvmAssembly
