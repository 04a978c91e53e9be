import Mathlib
import JvmAssembly.Proofs.BitSet

/-!
Maximal runs of a set of numbers. A set has one list of them, so lists of runs are equal if they
cover the same numbers, and runs carry over along any numbering that keeps them apart.
-/
namespace JvmAssembly

/-- The maximal runs of the numbers with a property as half-open intervals, in increasing order. -/
structure Runs (P : Nat → Prop) (runs : List (Nat × Nat)) : Prop where
  nonempty : ∀ r ∈ runs, r.1 < r.2
  apart : runs.Pairwise fun r s => r.2 < s.1
  cover : ∀ i, P i ↔ ∃ r ∈ runs, r.1 ≤ i ∧ i < r.2

namespace Runs

variable {P Q : Nat → Prop} {runs runs' : List (Nat × Nat)} {r : Nat × Nat}

theorem congr (h : Runs P runs) (same : ∀ i, Q i ↔ P i) : Runs Q runs :=
  ⟨h.nonempty, h.apart, fun i => (same i).trans (h.cover i)⟩

theorem first (h : Runs P (r :: runs)) : P r.1 :=
  (h.cover r.1).mpr ⟨r, List.mem_cons_self, Nat.le_refl _, h.nonempty r List.mem_cons_self⟩

theorem least (h : Runs P (r :: runs)) {i : Nat} (member : P i) : r.1 ≤ i := by
  obtain ⟨s, found, low, -⟩ := (h.cover i).mp member
  rcases List.mem_cons.mp found with rfl | later
  · exact low
  · have bound := h.nonempty r List.mem_cons_self
    have gap := List.rel_of_pairwise_cons h.apart later
    omega

theorem inside (h : Runs P (r :: runs)) {i : Nat} (low : r.1 ≤ i) (high : i < r.2) : P i :=
  (h.cover i).mpr ⟨r, List.mem_cons_self, low, high⟩

/-- A run does not go on. -/
theorem ended (h : Runs P (r :: runs)) : ¬ P r.2 := by
  intro member
  obtain ⟨s, found, low, high⟩ := (h.cover r.2).mp member
  rcases List.mem_cons.mp found with rfl | later
  · exact Nat.lt_irrefl _ high
  · have gap := List.rel_of_pairwise_cons h.apart later
    omega

theorem tail (h : Runs P (r :: runs)) : Runs (fun i => P i ∧ r.2 < i) runs := by
  refine ⟨fun s member => h.nonempty s (List.mem_cons_of_mem r member),
    (List.pairwise_cons.mp h.apart).2, fun i => ⟨?_, ?_⟩⟩
  · rintro ⟨member, past⟩
    obtain ⟨s, found, low, high⟩ := (h.cover i).mp member
    rcases List.mem_cons.mp found with rfl | later
    · omega
    · exact ⟨s, later, low, high⟩
  · rintro ⟨s, later, low, high⟩
    have gap := List.rel_of_pairwise_cons h.apart later
    exact ⟨(h.cover i).mpr ⟨s, List.mem_cons_of_mem r later, low, high⟩, by omega⟩

theorem le_of_first {s : Nat × Nat} (h : Runs P (r :: runs)) (h' : Runs P (s :: runs')) : r.2 ≤ s.2 := by
  by_contra less
  have bound := h'.nonempty s List.mem_cons_self
  have low := h.least h'.first
  exact h'.ended (h.inside (by omega) (by omega))

theorem unique (h : Runs P runs) (h' : Runs P runs') : runs = runs' := by
  induction runs generalizing P runs' with
  | nil =>
      cases runs' with
      | nil => rfl
      | cons s runs' =>
          obtain ⟨r, member, -⟩ := (h.cover s.1).mp h'.first
          cases member
  | cons r runs ih =>
      cases runs' with
      | nil =>
          obtain ⟨s, member, -⟩ := (h'.cover r.1).mp h.first
          cases member
      | cons s runs' =>
          have start : r.1 = s.1 := Nat.le_antisymm (h.least h'.first) (h'.least h.first)
          have stop : r.2 = s.2 := Nat.le_antisymm (h.le_of_first h') (h'.le_of_first h)
          have same : r = s := Prod.ext start stop
          subst same
          rw [ih h.tail h'.tail]

/-- A number past all others starts a run or makes the last one longer. -/
theorem extend (h : Runs P runs.reverse) {n : Nat} (past : ∀ i, P i → i < n) :
    Runs (fun i => P i ∨ i = n) (BitSet.extend runs n).reverse := by
  cases runs with
  | nil =>
      have none : ∀ i, ¬ P i := fun i member => by
        obtain ⟨r, found, -⟩ := (h.cover i).mp member
        cases found
      refine ⟨?_, List.pairwise_singleton _ _, fun i => ?_⟩
      · simp [BitSet.extend]
      · simp only [none, false_or, BitSet.extend, List.reverse_singleton, List.mem_singleton,
          exists_eq_left]
        omega
  | cons r runs =>
      rw [List.reverse_cons] at h
      have last := h.nonempty r (List.mem_append_right _ (List.mem_singleton_self r))
      have bound : r.2 ≤ n := by
        have inside : P (r.2 - 1) := (h.cover _).mpr
          ⟨r, List.mem_append_right _ (List.mem_singleton_self r), by omega, by omega⟩
        have := past _ inside
        omega
      obtain ⟨before, -, gaps⟩ := List.pairwise_append.mp h.apart
      obtain ⟨start, stop⟩ := r
      unfold BitSet.extend
      dsimp only at last bound gaps ⊢
      split
      · rename_i same
        subst same
        rw [List.reverse_cons]
        refine ⟨?_, ?_, ?_⟩
        · intro s member
          rcases List.mem_append.mp member with old | new
          · exact h.nonempty s (List.mem_append_left _ old)
          · cases List.mem_singleton.mp new
            dsimp only
            omega
        · refine List.pairwise_append.mpr ⟨before, List.pairwise_singleton _ _, ?_⟩
          intro s member t new
          cases List.mem_singleton.mp new
          exact gaps s member (start, stop) (List.mem_singleton_self _)
        · intro i
          rw [h.cover]
          simp only [List.mem_append, List.mem_singleton, or_and_right, exists_or,
            exists_eq_left, or_assoc]
          refine or_congr_right ?_
          omega
      · rename_i other
        rw [List.reverse_cons, List.reverse_cons]
        refine ⟨?_, ?_, ?_⟩
        · intro s member
          rcases List.mem_append.mp member with old | new
          · exact h.nonempty s old
          · cases List.mem_singleton.mp new
            exact Nat.lt_succ_self n
        · refine List.pairwise_append.mpr ⟨h.apart, List.pairwise_singleton _ _, ?_⟩
          intro s member t new
          cases List.mem_singleton.mp new
          rcases List.mem_append.mp member with old | same
          · have gap := gaps s old _ (List.mem_singleton_self _)
            dsimp only at gap ⊢
            omega
          · cases List.mem_singleton.mp same
            exact Nat.lt_of_le_of_ne bound other
        · intro i
          rw [h.cover]
          simp only [List.mem_append, List.mem_singleton, or_and_right, exists_or,
            exists_eq_left]
          refine or_congr_right ?_
          omega

/-- What comes right before a run does not belong to the set. -/
theorem begun (h : Runs P runs) {n : Nat} (member : r ∈ runs) (start : r.1 = n + 1) : ¬ P n := by
  induction runs generalizing P with
  | nil => cases member
  | cons s runs ih =>
      intro here
      rcases List.mem_cons.mp member with rfl | later
      · have low := h.least here
        omega
      · have gap := List.rel_of_pairwise_cons h.apart later
        rcases Nat.lt_or_ge s.2 n with past | before
        · exact ih h.tail later ⟨here, past⟩
        · exact h.ended (by rwa [show s.2 = n by omega])

theorem exists_between {offset : Nat → Nat} {a b n : Nat} (le : a ≤ b)
    (low : offset a ≤ n) (high : n < offset b) :
    ∃ i, a ≤ i ∧ i < b ∧ offset i ≤ n ∧ n < offset (i + 1) := by
  induction b, le using Nat.le_induction with
  | base => omega
  | succ b le ih =>
      rcases Nat.lt_or_ge n (offset b) with before | past
      · obtain ⟨i, first, last, here⟩ := ih before
        exact ⟨i, first, by omega, here⟩
      · exact ⟨b, le, Nat.lt_succ_self b, past, high⟩

/-- Runs of positions are runs of the offsets that the positions take, if something of a size
stands in front of every run. -/
theorem offsets (h : Runs P runs) {offset : Nat → Nat} (mono : Monotone offset)
    (gap : ∀ i, ¬ P i → P (i + 1) → offset i < offset (i + 1)) :
    Runs (fun n => ∃ i, P i ∧ offset i ≤ n ∧ n < offset (i + 1))
      (runs.filterMap fun r =>
        if offset r.1 < offset r.2 then some (offset r.1, offset r.2) else none) := by
  refine ⟨?_, ?_, fun n => ⟨?_, ?_⟩⟩
  · intro s member
    obtain ⟨r, -, made⟩ := List.mem_filterMap.mp member
    split at made
    · rename_i sized
      cases made
      exact sized
    · cases made
  · rw [List.pairwise_filterMap]
    refine h.apart.imp_of_mem fun {r s} _ later less => ?_
    intro t first u second
    split at first
    · split at second
      · cases first
        cases second
        dsimp only at less ⊢
        have start : s.1 = s.1 - 1 + 1 := by omega
        have inside : P (s.1 - 1 + 1) := start ▸ (h.cover s.1).mpr
          ⟨s, later, Nat.le_refl _, h.nonempty s later⟩
        have strict := gap _ (h.begun later start) inside
        rw [← start] at strict
        exact Nat.lt_of_le_of_lt (mono (by omega)) strict
      · cases second
    · cases first
  · rintro ⟨i, here, low, high⟩
    obtain ⟨r, member, first, last⟩ := (h.cover i).mp here
    have start := mono first
    have stop := mono (Nat.succ_le_of_lt last)
    refine ⟨_, List.mem_filterMap.mpr ⟨r, member, if_pos ?_⟩, ?_, ?_⟩
    · exact Nat.lt_of_le_of_lt (Nat.le_trans start low) (Nat.lt_of_lt_of_le high stop)
    · exact Nat.le_trans start low
    · exact Nat.lt_of_lt_of_le high stop
  · rintro ⟨s, member, low, high⟩
    obtain ⟨r, found, made⟩ := List.mem_filterMap.mp member
    split at made
    · cases made
      obtain ⟨i, first, last, here⟩ :=
        exists_between (Nat.le_of_lt (h.nonempty r found)) low high
      exact ⟨i, (h.cover i).mpr ⟨r, found, first, last⟩, here⟩
    · cases made

/-- The numbers in runs, in order. -/
def cells (runs : List (Nat × Nat)) : List Nat :=
  runs.flatMap fun r => List.range' r.1 (r.2 - r.1)

theorem length_cells (runs : List (Nat × Nat)) :
    (cells runs).length = (runs.map fun r => r.2 - r.1).sum := by
  simp [cells, List.length_flatMap]

theorem mem_cells (h : Runs P runs) (n : Nat) : n ∈ cells runs ↔ P n := by
  rw [h.cover, cells, List.mem_flatMap]
  refine exists_congr fun r => and_congr_right fun member => ?_
  have size := h.nonempty r member
  rw [List.mem_range'_1]
  omega

theorem nodup_cells (h : Runs P runs) : (cells runs).Nodup := by
  rw [cells, List.nodup_flatMap]
  refine ⟨fun r _ => List.nodup_range', h.apart.imp fun {r s} gap => ?_⟩
  intro n first second
  rw [List.mem_range'_1] at first second
  omega

/-- Runs that cover less are shorter in all. -/
theorem sum_le (h : Runs P runs) (h' : Runs Q runs') (sub : ∀ n, Q n → P n) :
    (runs'.map fun r => r.2 - r.1).sum ≤ (runs.map fun r => r.2 - r.1).sum ∧
      ((runs'.map fun r => r.2 - r.1).sum = (runs.map fun r => r.2 - r.1).sum →
        ∀ n, P n → Q n) := by
  rw [← length_cells, ← length_cells]
  have within : (cells runs').Subperm (cells runs) :=
    h'.nodup_cells.subperm fun n member => (h.mem_cells n).mpr (sub n ((h'.mem_cells n).mp member))
  refine ⟨within.length_le, fun same n member => ?_⟩
  have all := within.perm_of_length_le (Nat.le_of_eq same.symm)
  exact (h'.mem_cells n).mp (all.mem_iff.mpr ((h.mem_cells n).mpr member))

/-- Numbers that come in increasing order are gathered into their runs. -/
theorem of_increasing {elems : List Nat} (increasing : elems.Pairwise (· < ·)) :
    Runs (· ∈ elems) (elems.foldl BitSet.extend []).reverse := by
  induction elems using List.reverseRecOn with
  | nil => exact ⟨by simp, .nil, by simp⟩
  | append_singleton elems n ih =>
      obtain ⟨before, -, past⟩ := List.pairwise_append.mp increasing
      rw [List.foldl_append]
      refine ((ih before).extend fun i member => ?_).congr fun i => ?_
      · exact past i member n (List.mem_singleton_self n)
      · rw [List.mem_append, List.mem_singleton]

end Runs

theorem BitSet.runs_ranges {s : BitSet} (sound : s.Sound) :
    Runs (fun i => s.contains i = true) s.ranges :=
  (Runs.of_increasing s.pairwise_toList).congr fun i => (mem_toList sound i).symm

end JvmAssembly
