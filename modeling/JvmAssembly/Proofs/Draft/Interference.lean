import Mathlib
import JvmAssembly.Proofs.Draft.Slots

/-!
Slots depend on liveness only through which locals are live together. Two drafts with the same
locals that agree on this get the same slots and the same frame, whatever their positions are.
-/
namespace JvmAssembly.Allocation

section Conflicts

variable {n : Nat} {occupied : Array BitSet} {live other : BitSet}

theorem conflicts_iff (fits : Fits n occupied) (sound : live.Sound) (capacity : live.capacity = n)
    (j : Nat) :
    conflicts occupied live j = true ↔
      ∃ i, holds occupied j i = true ∧ live.contains i = true := by
  unfold conflicts holds
  cases stored : occupied[j]? with
  | none => simp
  | some taken =>
      obtain ⟨takenSound, takenCapacity⟩ := fits j taken stored
      exact BitSet.intersects_iff takenSound sound (takenCapacity.trans capacity.symm)

theorem conflicts_occupyAll (fits : Fits n occupied) (sound : live.Sound)
    (capacity : live.capacity = n) (sound' : other.Sound) (capacity' : other.capacity = n)
    (slot width j : Nat) :
    conflicts (occupyAll occupied live slot width) other j =
      (conflicts occupied other j ||
        (decide (slot ≤ j ∧ j < slot + width) && live.intersects other)) := by
  have grown := fits_occupyAll fits sound capacity slot width
  rw [Bool.eq_iff_iff, conflicts_iff grown sound' capacity', Bool.or_eq_true, Bool.and_eq_true,
    decide_eq_true_iff, conflicts_iff fits sound' capacity',
    BitSet.intersects_iff sound sound' (capacity.trans capacity'.symm)]
  simp only [holds_occupyAll fits sound capacity, Bool.or_eq_true, Bool.and_eq_true,
    decide_eq_true_iff, or_and_right, exists_or, and_assoc, exists_and_left]

theorem size_occupy (occupied : Array BitSet) (live : BitSet) (slot : Nat) :
    (occupy occupied live slot).size = max occupied.size (slot + 1) := by
  simp only [occupy, Array.size_modify, Array.size_append, Array.size_replicate]
  omega

theorem size_occupyAll_congr {occupied' : Array BitSet} (same : occupied'.size = occupied.size)
    (live live' : BitSet) (slot width : Nat) :
    (occupyAll occupied' live' slot width).size = (occupyAll occupied live slot width).size := by
  induction width with
  | zero => exact same
  | succ width ih => rw [occupyAll_succ, occupyAll_succ, size_occupy, size_occupy, ih]

theorem firstFit_congr {occupied' : Array BitSet} {live' : BitSet}
    (size : occupied'.size = occupied.size)
    (same : ∀ j, conflicts occupied' live' j = conflicts occupied live j) (width : Nat) :
    firstFit occupied' live' width = firstFit occupied live width := by
  unfold firstFit
  simp only [size, same]

end Conflicts

end JvmAssembly.Allocation

namespace JvmAssembly

/-- The first `count` locals are live together in the one exactly if they are in the other. -/
def Liveness.Alike (liveness liveness' : Liveness) (count : Nat) : Prop :=
  ∀ v < count, ∀ w < count,
    (liveness'.live v).intersects (liveness'.live w) =
      (liveness.live v).intersects (liveness.live w)

namespace Allocation

/-- Both allocations have come equally far. They may differ in slots that are still to be given. -/
structure Matched (liveness liveness' : Liveness) (n n' : Nat) (done : Nat → Prop)
    (a a' : Allocation) : Prop where
  fits : Fits n a.occupied
  fits' : Fits n' a'.occupied
  frame : a'.frame = a.frame
  size : a'.occupied.size = a.occupied.size
  count : a'.locals.size = a.locals.size
  conflicts : ∀ v < a.locals.size, ∀ j,
    conflicts a'.occupied (liveness'.live v) j = conflicts a.occupied (liveness.live v) j
  info : ∀ v l, a.locals[v]? = some l →
    ∃ slot, a'.locals[v]? = some { l with slot } ∧ (l.fixedSlot ≠ none ∨ done v → slot = l.slot)

section Matched

variable {liveness liveness' : Liveness} {n n' v : Nat} {done : Nat → Prop} {a a' : Allocation}

theorem Matched.claim (matched : Matched liveness liveness' n n' done a a')
    (alike : liveness.Alike liveness' a.locals.size) (ranged : liveness.Ranged n a.locals.size)
    (ranged' : liveness'.Ranged n' a.locals.size) (inside : v < a.locals.size)
    (slot width : Nat) :
    Matched liveness liveness' n n' done (a.claim (liveness.live v) slot width)
      (a'.claim (liveness'.live v) slot width) := by
  obtain ⟨sound, capacity⟩ := ranged v inside
  obtain ⟨sound', capacity'⟩ := ranged' v inside
  refine ⟨fits_occupyAll matched.fits sound capacity slot width,
    fits_occupyAll matched.fits' sound' capacity' slot width, ?_,
    size_occupyAll_congr matched.size _ _ slot width, matched.count, ?_, matched.info⟩
  · exact congrArg (max · (slot + width)) matched.frame
  · intro w inside' j
    obtain ⟨soundW, capacityW⟩ := ranged w inside'
    obtain ⟨soundW', capacityW'⟩ := ranged' w inside'
    change Allocation.conflicts (occupyAll a'.occupied _ slot width) _ j =
      Allocation.conflicts (occupyAll a.occupied _ slot width) _ j
    rw [conflicts_occupyAll matched.fits sound capacity soundW capacityW,
      conflicts_occupyAll matched.fits' sound' capacity' soundW' capacityW',
      matched.conflicts w inside', alike v inside w inside']

theorem Matched.claimFixed (matched : Matched liveness liveness' n n' done a a')
    (alike : liveness.Alike liveness' a.locals.size) (ranged : liveness.Ranged n a.locals.size)
    (ranged' : liveness'.Ranged n' a.locals.size) (inside : v < a.locals.size) :
    Matched liveness liveness' n n' done (claimFixed liveness a v) (claimFixed liveness' a' v) := by
  obtain ⟨slot, stored, -⟩ := matched.info v a.locals[v] (Array.getElem?_eq_getElem inside)
  unfold Allocation.claimFixed
  rw [stored, Array.getElem?_eq_getElem inside]
  obtain ⟨name, type, fixed, old⟩ := a.locals[v]
  cases fixed with
  | none => exact matched
  | some slot => exact matched.claim alike ranged ranged' inside _ _

theorem matched_foldl_claimFixed (vs : List Nat)
    (matched : Matched liveness liveness' n n' done a a')
    (alike : liveness.Alike liveness' a.locals.size) (ranged : liveness.Ranged n a.locals.size)
    (ranged' : liveness'.Ranged n' a.locals.size) (inside : ∀ v ∈ vs, v < a.locals.size) :
    Matched liveness liveness' n n' done (vs.foldl (Allocation.claimFixed liveness) a)
      (vs.foldl (Allocation.claimFixed liveness') a') := by
  induction vs generalizing a a' with
  | nil => exact matched
  | cons v vs ih =>
      have next := matched.claimFixed alike ranged ranged' (inside v List.mem_cons_self)
      have same := claimFixed_locals liveness a v
      exact ih next (same ▸ alike) (same ▸ ranged) (same ▸ ranged')
        fun w member => same ▸ inside w (List.mem_cons_of_mem v member)

/-- A local that gets the same slot in both is done. -/
theorem Matched.setSlot (matched : Matched liveness liveness' n n' done a a')
    (slot : Option UInt16) :
    Matched liveness liveness' n n' (fun w => done w ∨ w = v) (a.setSlot v slot)
      (a'.setSlot v slot) := by
  have size : (a.setSlot v slot).locals.size = a.locals.size := by simp [Allocation.setSlot]
  have size' : (a'.setSlot v slot).locals.size = a'.locals.size := by simp [Allocation.setSlot]
  refine ⟨matched.fits, matched.fits', matched.frame, matched.size,
    size'.trans (matched.count.trans size.symm), ?_, ?_⟩
  · rw [size]
    exact matched.conflicts
  · intro w l found
    rw [setSlot_getElem?] at found ⊢
    by_cases same : v = w
    · rw [if_pos same] at found ⊢
      obtain ⟨old, before, rfl⟩ := Option.map_eq_some_iff.mp found
      obtain ⟨other, stored, -⟩ := matched.info w old before
      exact ⟨slot, by rw [stored, Option.map_some], fun _ => rfl⟩
    · rw [if_neg same] at found ⊢
      obtain ⟨other, stored, kept⟩ := matched.info w l found
      refine ⟨other, stored, fun settled => kept ?_⟩
      rcases settled with fixed | before | rfl
      · exact .inl fixed
      · exact .inr before
      · exact (same rfl).elim

theorem Matched.weaken {done' : Nat → Prop} (matched : Matched liveness liveness' n n' done a a')
    (settled : ∀ w l, a.locals[w]? = some l → done' w → l.fixedSlot ≠ none ∨ done w) :
    Matched liveness liveness' n n' done' a a' := by
  refine { matched with info := ?_ }
  intro w l found
  obtain ⟨slot, stored, kept⟩ := matched.info w l found
  refine ⟨slot, stored, fun h => kept ?_⟩
  rcases h with fixed | done
  · exact .inl fixed
  · exact settled w l found done

theorem Matched.place {b : Allocation} (matched : Matched liveness liveness' n n' done a a')
    (alike : liveness.Alike liveness' a.locals.size) (ranged : liveness.Ranged n a.locals.size)
    (ranged' : liveness'.Ranged n' a.locals.size) (inside : v < a.locals.size)
    (h : place liveness v a = (.ok (), b)) :
    ∃ b', place liveness' v a' = (.ok (), b') ∧
      Matched liveness liveness' n n' (fun w => done w ∨ w = v) b b' := by
  have found := Array.getElem?_eq_getElem inside
  generalize a.locals[v] = l at found
  obtain ⟨name, type, fixed, old⟩ := l
  obtain ⟨slot, stored, -⟩ := matched.info v _ found
  unfold Allocation.place at h ⊢
  rw [found] at h
  rw [stored]
  cases fixed with
  | some pinned =>
      cases h
      refine ⟨a', rfl, matched.weaken ?_⟩
      rintro w l there (before | rfl)
      · exact .inr before
      · cases found.symm.trans there
        exact .inl nofun
  | none =>
      dsimp only at h ⊢
      have fit := firstFit_congr matched.size (matched.conflicts v inside)
      rw [BitSet.isEmpty_eq_not_intersects] at h ⊢
      rw [alike v inside v inside, fit]
      split at h
      · rename_i dead
        cases h
        exact ⟨_, if_pos dead, matched.setSlot none⟩
      · rename_i alive
        split at h
        · cases h
        · rename_i room
          cases h
          refine ⟨_, (if_neg alive).trans (if_neg room), ?_⟩
          exact (matched.claim alike ranged ranged' inside _ _).setSlot _

theorem matched_placeAll {vs : List Nat} {b : Allocation}
    (matched : Matched liveness liveness' n n' done a a')
    (alike : liveness.Alike liveness' a.locals.size) (ranged : liveness.Ranged n a.locals.size)
    (ranged' : liveness'.Ranged n' a.locals.size) (inside : ∀ v ∈ vs, v < a.locals.size)
    (h : placeAll liveness vs a = (.ok (), b)) :
    ∃ b', placeAll liveness' vs a' = (.ok (), b') ∧
      Matched liveness liveness' n n' (fun w => done w ∨ w ∈ vs) b b' := by
  induction vs generalizing a a' done with
  | nil =>
      cases h
      refine ⟨a', rfl, matched.weaken ?_⟩
      rintro w l there (before | member)
      · exact .inr before
      · cases member
  | cons v vs ih =>
      rw [placeAll] at h ⊢
      cases placed : Allocation.place liveness v a with
      | mk result c =>
          rw [placed] at h
          cases result with
          | error fault => cases h
          | ok _ =>
              have same := (place_reslotted placed).size
              obtain ⟨c', placed', next⟩ :=
                matched.place alike ranged ranged' (inside v List.mem_cons_self) placed
              obtain ⟨b', rest, last⟩ := ih next (same ▸ alike) (same ▸ ranged) (same ▸ ranged')
                (fun w member => same ▸ inside w (List.mem_cons_of_mem v member)) h
              rw [placed']
              refine ⟨b', rest, last.weaken ?_⟩
              rintro w l there (before | member)
              · exact .inr (.inl (.inl before))
              · rcases List.mem_cons.mp member with rfl | later
                · exact .inr (.inl (.inr rfl))
                · exact .inr (.inr later)

/-- Once all is done the locals are the same. -/
theorem Matched.locals_eq (matched : Matched liveness liveness' n n' done a a')
    (all : ∀ v < a.locals.size, done v) : a'.locals = a.locals := by
  refine Array.ext_getElem? fun v => ?_
  by_cases inside : v < a.locals.size
  · have found := Array.getElem?_eq_getElem inside
    obtain ⟨slot, stored, kept⟩ := matched.info v _ found
    rw [stored, found, kept (.inr (all v inside))]
  · rw [Array.getElem?_eq_none (Nat.not_lt.mp inside),
      Array.getElem?_eq_none (matched.count ▸ Nat.not_lt.mp inside)]

end Matched

end Allocation

open Allocation in
theorem Draft.allocateSlots_congr {liveness liveness' : Liveness} {n n' : Nat} {d d' x : Draft}
    {frame : UInt16} (alike : liveness.Alike liveness' d.locals.size)
    (ranged : liveness.Ranged n d.locals.size) (ranged' : liveness'.Ranged n' d.locals.size)
    (moved : Reslotted d.locals d'.locals) (reserved : d'.reservedSlots = d.reservedSlots)
    (h : allocateSlots liveness d = (.ok frame, x)) :
    allocateSlots liveness' d' = (.ok frame, { d' with locals := x.locals }) := by
  have start : Matched liveness liveness' n n' (fun _ => False)
      ⟨d.locals, #[], d.reservedSlots.toNat⟩ ⟨d'.locals, #[], d'.reservedSlots.toNat⟩ := by
    refine ⟨nofun, nofun, congrArg UInt16.toNat reserved, rfl, moved.size, fun _ _ _ => rfl, ?_⟩
    intro v l found
    obtain ⟨slot, stored, kept⟩ := moved.info v l found
    exact ⟨slot, stored, fun settled => kept (settled.resolve_right not_false)⟩
  have within : ∀ v ∈ List.range d.locals.size, v < d.locals.size := fun v => List.mem_range.mp
  have fixed := matched_foldl_claimFixed _ start alike ranged ranged' within
  unfold allocateSlots at h ⊢
  dsimp only at h ⊢
  have same := foldl_claimFixed_locals liveness (List.range d.locals.size)
    ⟨d.locals, #[], d.reservedSlots.toNat⟩
  rw [moved.size]
  cases placed : placeAll liveness (List.range d.locals.size)
      ((List.range d.locals.size).foldl (claimFixed liveness)
        ⟨d.locals, #[], d.reservedSlots.toNat⟩) with
  | mk result a =>
      rw [placed] at h
      cases result with
      | error fault => cases h
      | ok _ =>
          have count := (placeAll_reslotted placed).size
          obtain ⟨a', placed', last⟩ := matched_placeAll fixed (same ▸ alike) (same ▸ ranged)
            (same ▸ ranged') (same ▸ within) placed
          have final : a'.locals = a.locals := by
            refine last.locals_eq fun v inside => .inr (List.mem_range.mpr ?_)
            rwa [count, same] at inside
          rw [placed']
          dsimp only at h ⊢
          rw [last.frame, final]
          split at h
          · cases h
          · rename_i room
            cases h
            exact if_neg room

end JvmAssembly
