import Mathlib
import JvmAssembly.Draft.Liveness
import JvmAssembly.Proofs.BitSet
import JvmAssembly.Proofs.Draft.Flow
import JvmAssembly.Proofs.Draft.Slots

/-!
Live sets solve their equations. A sweep that adds nothing changes nothing, so its sets are
closed under the equations of every position; a sweep that adds something makes one of the two
sets larger, and there are not more such sweeps than the budget allows.
-/
namespace JvmAssembly.Liveness

variable {eqs : Equations} {v n i : Nat} {s : Sweep}

/-- What the equations ask of the exit of a position, given the sets of entries. -/
def Equations.out (eqs : Equations) (entry : BitSet) (i : Nat) : Bool :=
  (eqs.successors.getD i []).any entry.contains

/-- What the equations ask of the entry of a position. -/
def Equations.into (eqs : Equations) (v : Nat) (entry : BitSet) (i : Nat) : Bool :=
  (eqs.points[i]?).any (fun p => p.uses == some v) ||
    (eqs.out entry i && !(eqs.points[i]?).any (fun p => p.defines == some v)) ||
    (eqs.handlers.getD i []).any entry.contains

/-- The sets have all that the equations of a position ask. -/
def ClosedAt (eqs : Equations) (v : Nat) (entry exit : BitSet) (i : Nat) : Prop :=
  (eqs.out entry i = true → exit.contains i = true) ∧
    (eqs.into v entry i = true → entry.contains i = true)

/-- Puts a position into a set if asked to; the second part says that it was new there. -/
def addIf (asked : Bool) (set : BitSet) (i : Nat) : BitSet × Bool :=
  if asked then set.insert i else (set, false)

section AddIf

variable {set : BitSet} {asked : Bool}

theorem capacity_addIf : (addIf asked set i).1.capacity = set.capacity := by
  cases asked with
  | false => rfl
  | true => exact BitSet.capacity_insert set i

theorem sound_addIf (sound : set.Sound) (inside : i < set.capacity) :
    (addIf asked set i).1.Sound := by
  cases asked with
  | false => exact sound
  | true => exact BitSet.sound_insert sound inside

theorem contains_addIf (sound : set.Sound) (inside : i < set.capacity) (j : Nat) :
    (addIf asked set i).1.contains j = ((decide (j = i) && asked) || set.contains j) := by
  cases asked with
  | false => simp [addIf]
  | true =>
      rw [Bool.and_true]
      exact BitSet.contains_insert sound inside j

theorem addIf_isNew (sound : set.Sound) : (addIf asked set i).2 = (asked && !set.contains i) := by
  cases asked with
  | false => rfl
  | true => exact BitSet.insert_isNew sound i

/-- What is in the set already need not be added. -/
theorem addIf_of_contains (sound : set.Sound) (h : asked = true → set.contains i = true) :
    addIf asked set i = (set, false) := by
  cases asked with
  | false => rfl
  | true => exact BitSet.insert_of_contains sound (h rfl)

/-- How many of the first `n` positions are in a set. -/
def count (n : Nat) (set : BitSet) : Nat :=
  ((Finset.range n).filter fun i => set.contains i = true).card

theorem count_le (n : Nat) (set : BitSet) : count n set ≤ n := by
  have bound := Finset.card_filter_le (Finset.range n) fun i => set.contains i = true
  rwa [Finset.card_range] at bound

theorem count_addIf_le (sound : set.Sound) (inside : i < set.capacity) :
    count n set ≤ count n (addIf asked set i).1 := by
  apply Finset.card_le_card
  apply Finset.monotone_filter_right
  intro j _ member
  rw [contains_addIf sound inside, member, Bool.or_true]

theorem count_addIf_lt (sound : set.Sound) (inside : i < set.capacity) (bound : i < n)
    (isNew : (addIf asked set i).2 = true) : count n set < count n (addIf asked set i).1 := by
  rw [addIf_isNew sound, Bool.and_eq_true, Bool.not_eq_true'] at isNew
  obtain ⟨rfl, fresh⟩ := isNew
  apply Finset.card_lt_card
  refine ⟨?_, fun back => ?_⟩
  · apply Finset.monotone_filter_right
    intro j _ member
    rw [contains_addIf sound inside, member, Bool.or_true]
  · have added : (addIf true set i).1.contains i = true := by
      rw [contains_addIf sound inside]
      simp
    have member := back (Finset.mem_filter.mpr ⟨Finset.mem_range.mpr bound, added⟩)
    rw [Finset.mem_filter, fresh] at member
    exact Bool.false_ne_true member.2

end AddIf

namespace Sweep

/-- Both sets range over `n` positions. -/
structure Fits (n : Nat) (s : Sweep) : Prop where
  entry : s.entry.Sound
  exit : s.exit.Sound
  entryCapacity : s.entry.capacity = n
  exitCapacity : s.exit.capacity = n

theorem visit_eq (eqs : Equations) (v i : Nat) (s : Sweep) :
    s.visit eqs v i =
      ⟨(addIf (eqs.into v s.entry i) s.entry i).1, (addIf (eqs.out s.entry i) s.exit i).1,
        s.grown || (addIf (eqs.out s.entry i) s.exit i).2 ||
          (addIf (eqs.into v s.entry i) s.entry i).2⟩ := by
  obtain ⟨entry, exit, grown⟩ := s
  rfl

theorem Fits.inEntry (fits : s.Fits n) (inside : i < n) : i < s.entry.capacity :=
  fits.entryCapacity.symm ▸ inside

theorem Fits.inExit (fits : s.Fits n) (inside : i < n) : i < s.exit.capacity :=
  fits.exitCapacity.symm ▸ inside

theorem Fits.visit (fits : s.Fits n) (inside : i < n) : (s.visit eqs v i).Fits n := by
  rw [visit_eq]
  exact ⟨sound_addIf fits.entry (fits.inEntry inside), sound_addIf fits.exit (fits.inExit inside),
    capacity_addIf.trans fits.entryCapacity, capacity_addIf.trans fits.exitCapacity⟩

/-- A visit where the sets are closed changes nothing. -/
theorem visit_of_closed (fits : s.Fits n) (closed : ClosedAt eqs v s.entry s.exit i) :
    s.visit eqs v i = s := by
  rw [visit_eq, addIf_of_contains fits.exit closed.1, addIf_of_contains fits.entry closed.2]
  simp only [Bool.or_false]

/-- A visit that adds nothing changes nothing, and the sets are closed at its position. -/
theorem visit_settled (fits : s.Fits n) (settled : (s.visit eqs v i).grown = false) :
    s.visit eqs v i = s ∧ ClosedAt eqs v s.entry s.exit i := by
  rw [visit_eq] at settled
  simp only [Bool.or_eq_false_iff, addIf_isNew fits.entry, addIf_isNew fits.exit] at settled
  obtain ⟨⟨-, out⟩, into⟩ := settled
  have closed : ClosedAt eqs v s.entry s.exit i :=
    ⟨fun h => by simpa [h] using out, fun h => by simpa [h] using into⟩
  exact ⟨visit_of_closed fits closed, closed⟩

/-- Elements of both sets. -/
def weight (n : Nat) (s : Sweep) : Nat := count n s.entry + count n s.exit

theorem weight_le (n : Nat) (s : Sweep) : s.weight n ≤ 2 * n := by
  have entry := count_le n s.entry
  have exit := count_le n s.exit
  unfold weight
  omega

theorem weight_visit_le (fits : s.Fits n) (inside : i < n) :
    s.weight n ≤ (s.visit eqs v i).weight n := by
  rw [visit_eq]
  exact Nat.add_le_add (count_addIf_le fits.entry (fits.inEntry inside))
    (count_addIf_le fits.exit (fits.inExit inside))

theorem weight_visit_lt (fits : s.Fits n) (inside : i < n) (before : s.grown = false)
    (after : (s.visit eqs v i).grown = true) : s.weight n < (s.visit eqs v i).weight n := by
  rw [visit_eq] at after ⊢
  simp only [before, Bool.false_or, Bool.or_eq_true] at after
  rcases after with exit | entry
  · exact Nat.add_lt_add_of_le_of_lt (count_addIf_le fits.entry (fits.inEntry inside))
      (count_addIf_lt fits.exit (fits.inExit inside) inside exit)
  · exact Nat.add_lt_add_of_lt_of_le
      (count_addIf_lt fits.entry (fits.inEntry inside) inside entry)
      (count_addIf_le fits.exit (fits.inExit inside))

theorem Fits.run (fits : s.Fits n) {k : Nat} (inside : k ≤ n) : (run eqs v k s).Fits n := by
  induction k generalizing s with
  | zero => exact fits
  | succ k ih => exact ih (fits.visit inside) (Nat.le_of_succ_le inside)

theorem weight_run_le (fits : s.Fits n) {k : Nat} (inside : k ≤ n) :
    s.weight n ≤ (run eqs v k s).weight n := by
  induction k generalizing s with
  | zero => exact Nat.le_refl _
  | succ k ih =>
      exact (weight_visit_le fits inside).trans
        (ih (fits.visit inside) (Nat.le_of_succ_le inside))

/-- A sweep that adds something makes the sets larger. -/
theorem weight_run_lt (fits : s.Fits n) {k : Nat} (inside : k ≤ n) (before : s.grown = false)
    (after : (run eqs v k s).grown = true) : s.weight n < (run eqs v k s).weight n := by
  induction k generalizing s with
  | zero => exact absurd (before.symm.trans after) Bool.false_ne_true
  | succ k ih =>
      have later := Nat.le_of_succ_le inside
      by_cases grown : (s.visit eqs v k).grown = true
      · exact (weight_visit_lt fits inside before grown).trans_le
          (weight_run_le (fits.visit inside) later)
      · exact (weight_visit_le fits inside).trans_lt
          (ih (fits.visit inside) later (Bool.not_eq_true _ ▸ grown) after)

/-- A sweep that adds nothing changes nothing, and the sets are closed at all its positions. -/
theorem run_settled (fits : s.Fits n) {k : Nat} (inside : k ≤ n)
    (settled : (run eqs v k s).grown = false) :
    run eqs v k s = s ∧ ∀ i < k, ClosedAt eqs v s.entry s.exit i := by
  induction k generalizing s with
  | zero => exact ⟨rfl, fun i h => absurd h (Nat.not_lt_zero i)⟩
  | succ k ih =>
      obtain ⟨same, closed⟩ := ih (fits.visit inside) (Nat.le_of_succ_le inside) settled
      have visited : (s.visit eqs v k).grown = false := by
        rw [← same]
        exact settled
      obtain ⟨unchanged, last⟩ := visit_settled fits visited
      rw [unchanged] at same closed
      refine ⟨(congrArg (run eqs v k) unchanged).trans same, ?_⟩
      intro i h
      rcases Nat.lt_succ_iff_lt_or_eq.mp h with before | rfl
      · exact closed i before
      · exact last

/-- A sweep over closed sets changes nothing. -/
theorem run_of_closed (fits : s.Fits n) {k : Nat}
    (closed : ∀ i < k, ClosedAt eqs v s.entry s.exit i) : run eqs v k s = s := by
  induction k with
  | zero => rfl
  | succ k ih =>
      rw [run, visit_of_closed fits (closed k (Nat.lt_succ_self k))]
      exact ih fun i inside => closed i (Nat.lt_succ_of_lt inside)

/-- With a budget past the room that is left, sweeping ends with closed sets. -/
theorem settle_closed (eqs : Equations) (v budget : Nat) (fits : s.Fits n)
    (size : eqs.points.size = n) (room : 2 * n < s.weight n + budget) :
    (settle eqs v budget s).Fits n ∧
      ∀ i < n, ClosedAt eqs v (settle eqs v budget s).entry (settle eqs v budget s).exit i := by
  induction budget generalizing s with
  | zero =>
      have bound := weight_le n s
      omega
  | succ budget ih =>
      have fresh : Fits n { s with grown := false } :=
        ⟨fits.entry, fits.exit, fits.entryCapacity, fits.exitCapacity⟩
      have inside : eqs.points.size ≤ n := Nat.le_of_eq size
      have swept : (run eqs v eqs.points.size { s with grown := false }).Fits n :=
        fresh.run inside
      unfold settle
      dsimp only
      split
      · rename_i grown
        have more := weight_run_lt fresh inside rfl grown
        have same : weight n { s with grown := false } = s.weight n := rfl
        exact ih swept (by omega)
      · rename_i still
        refine ⟨swept, ?_⟩
        obtain ⟨same, closed⟩ := run_settled fresh inside (Bool.not_eq_true _ ▸ still)
        rw [same]
        exact fun i h => closed i (size.symm ▸ h)

/-- The sets have nothing beyond what the predicates allow. -/
structure Within (P Q : Nat → Prop) (s : Sweep) : Prop where
  entry : ∀ j, s.entry.contains j = true → P j
  exit : ∀ j, s.exit.contains j = true → Q j

variable {P Q : Nat → Prop}

theorem Within.visit (within : s.Within P Q) (fits : s.Fits n) (inside : i < n)
    (into : eqs.into v s.entry i = true → P i) (out : eqs.out s.entry i = true → Q i) :
    (s.visit eqs v i).Within P Q := by
  rw [visit_eq]
  constructor
  · intro j member
    rw [contains_addIf fits.entry (fits.inEntry inside), Bool.or_eq_true, Bool.and_eq_true,
      decide_eq_true_eq] at member
    rcases member with ⟨rfl, asked⟩ | old
    · exact into asked
    · exact within.entry j old
  · intro j member
    rw [contains_addIf fits.exit (fits.inExit inside), Bool.or_eq_true, Bool.and_eq_true,
      decide_eq_true_eq] at member
    rcases member with ⟨rfl, asked⟩ | old
    · exact out asked
    · exact within.exit j old

section

variable (into : ∀ (entry : BitSet) (i : Nat), (∀ j, entry.contains j = true → P j) →
  eqs.into v entry i = true → P i)
  (out : ∀ (entry : BitSet) (i : Nat), (∀ j, entry.contains j = true → P j) →
    eqs.out entry i = true → Q i)

include into out

theorem Within.run (within : s.Within P Q) (fits : s.Fits n) {k : Nat} (inside : k ≤ n) :
    (run eqs v k s).Within P Q := by
  induction k generalizing s with
  | zero => exact within
  | succ k ih =>
      exact ih (within.visit fits inside (into _ _ within.entry) (out _ _ within.entry))
        (fits.visit inside) (Nat.le_of_succ_le inside)

/-- Predicates that are closed under the equations bound the sets, however long the sweeps go. -/
theorem Within.settle (within : s.Within P Q) (fits : s.Fits eqs.points.size) (budget : Nat) :
    (settle eqs v budget s).Within P Q := by
  induction budget generalizing s with
  | zero => exact within
  | succ budget ih =>
      have fresh : Fits eqs.points.size { s with grown := false } :=
        ⟨fits.entry, fits.exit, fits.entryCapacity, fits.exitCapacity⟩
      have begun : Within P Q { s with grown := false } := ⟨within.entry, within.exit⟩
      have swept := begun.run into out fresh (Nat.le_refl _)
      unfold Sweep.settle
      dsimp only
      split
      · exact ih swept (fresh.run (Nat.le_refl _))
      · exact swept

end

end Sweep

/-- Live sets of one local that have all that the equations ask. -/
structure Solves (eqs : Equations) (v : Nat) (sets : LiveSets) : Prop where
  entry : sets.entry.Sound
  exit : sets.exit.Sound
  entryCapacity : sets.entry.capacity = eqs.points.size
  exitCapacity : sets.exit.capacity = eqs.points.size
  closed : ∀ i < eqs.points.size, ClosedAt eqs v sets.entry sets.exit i

theorem solves_ofLocal (eqs : Equations) (v : Nat) : Solves eqs v (ofLocal eqs v) := by
  unfold ofLocal
  dsimp only
  split
  · have fits : Sweep.Fits eqs.points.size
        ⟨.empty eqs.points.size, .empty eqs.points.size, false⟩ :=
      ⟨BitSet.sound_empty _, BitSet.sound_empty _, rfl, rfl⟩
    obtain ⟨done, closed⟩ :=
      Sweep.settle_closed eqs v (2 * eqs.points.size + 1) fits rfl (by omega)
    exact ⟨done.entry, done.exit, done.entryCapacity, done.exitCapacity, closed⟩
  · rename_i unread
    refine ⟨BitSet.sound_empty _, BitSet.sound_empty _, rfl, rfl, ?_⟩
    intro i inside
    rw [Bool.not_eq_true, Array.any_eq_false] at unread
    have never := unread i inside
    refine ⟨fun h => ?_, fun h => ?_⟩
    · simp [Equations.out] at h
    · simp [Equations.into, Equations.out, Array.getElem?_eq_getElem inside] at h
      simp [h] at never

/-- Live sets have no more than any solution of their equations. -/
theorem ofLocal_within {P Q : Nat → Prop}
    (into : ∀ (entry : BitSet) (i : Nat), (∀ j, entry.contains j = true → P j) →
      eqs.into v entry i = true → P i)
    (out : ∀ (entry : BitSet) (i : Nat), (∀ j, entry.contains j = true → P j) →
      eqs.out entry i = true → Q i) :
    (∀ j, (ofLocal eqs v).entry.contains j = true → P j) ∧
      ∀ j, (ofLocal eqs v).exit.contains j = true → Q j := by
  have none : ∀ {R : Nat → Prop} (j : Nat),
      (BitSet.empty eqs.points.size).contains j = true → R j := by
    intro R j member
    rw [BitSet.contains_empty] at member
    cases member
  unfold ofLocal
  dsimp only
  split
  · have start : Sweep.Within P Q ⟨.empty eqs.points.size, .empty eqs.points.size, false⟩ :=
      ⟨none, none⟩
    have done := start.settle into out ⟨BitSet.sound_empty _, BitSet.sound_empty _, rfl, rfl⟩
      (2 * eqs.points.size + 1)
    exact ⟨done.entry, done.exit⟩
  · exact ⟨none, none⟩

section OfFlow

variable {f : Flow} {bound : Nat}

theorem entryOf_ofFlow (inside : v < bound) :
    (ofFlow f bound).entryOf v = (ofLocal (Equations.ofFlow f) v).entry := by
  simp [entryOf, ofFlow, inside]

theorem exitOf_ofFlow (inside : v < bound) :
    (ofFlow f bound).exitOf v = (ofLocal (Equations.ofFlow f) v).exit := by
  simp [exitOf, ofFlow, inside]

theorem contains_live (inside : v < bound) (i : Nat) :
    ((ofFlow f bound).live v).contains i =
      (((ofFlow f bound).entryOf v).contains i || ((ofFlow f bound).exitOf v).contains i) := by
  have solves := solves_ofLocal (Equations.ofFlow f) v
  rw [live, entryOf_ofFlow inside, exitOf_ofFlow inside]
  exact BitSet.contains_union solves.entry solves.exit
    (solves.entryCapacity.trans solves.exitCapacity.symm) i

theorem ranged_ofFlow (f : Flow) (bound : Nat) : (ofFlow f bound).Ranged f.size bound := by
  intro v inside
  have solves := solves_ofLocal (Equations.ofFlow f) v
  rw [live, entryOf_ofFlow inside, exitOf_ofFlow inside]
  exact ⟨BitSet.sound_union solves.entry solves.exit
    (solves.entryCapacity.trans solves.exitCapacity.symm), solves.entryCapacity⟩

theorem closed_ofFlow (inside : v < bound) (here : i < f.size) :
    ClosedAt (Equations.ofFlow f) v ((ofFlow f bound).entryOf v) ((ofFlow f bound).exitOf v) i := by
  rw [entryOf_ofFlow inside, exitOf_ofFlow inside]
  exact (solves_ofLocal (Equations.ofFlow f) v).closed i here

theorem out_ofFlow (here : i < f.size) {j : Nat} {entry : BitSet}
    (member : j ∈ f.successors f.returnPoints i) (live : entry.contains j = true) :
    (Equations.ofFlow f).out entry i = true := by
  rw [Equations.out, List.any_eq_true]
  refine ⟨j, ?_, live⟩
  simpa [Equations.ofFlow, here] using member

end OfFlow

end JvmAssembly.Liveness

namespace JvmAssembly.Draft

open Liveness

variable {d : Draft} {f : Flow} {v i j : Nat}

theorem lt_size_of_at? (h : d.flow = .ok f) {x : Instruction} (here : d.at? i = some x) :
    i < f.size := by
  obtain ⟨n, stored, -⟩ := Option.map_eq_some_iff.mp here
  rw [size_flow h]
  exact (List.getElem?_eq_some_iff.mp stored).1

/-- What is read at a position is live on entry to it. -/
theorem live_of_uses (valid : d.Valid) (h : d.flow = .ok f) {x : Instruction} {w : Local}
    (here : d.at? i = some x) (uses : x.uses = some w) :
    ((ofFlow f d.locals.size).entryOf w.index).contains i = true := by
  obtain ⟨n, -, rfl⟩ := Option.map_eq_some_iff.mp here
  have inside := ((valid.owns n).uses w uses).2
  obtain ⟨p, found, described⟩ := flow_point valid h here
  apply (closed_ofFlow inside (lt_size_of_at? h here)).2
  have stored : (Equations.ofFlow f).points[i]? = some p := found
  simp [Equations.into, stored, described.uses, uses]

/-- What is needed behind a position is live on exit from it. -/
theorem live_exit (valid : d.Valid) (h : d.flow = .ok f) {x : Instruction}
    (here : d.at? i = some x) (inside : v < d.locals.size) (edge : d.Edge i j)
    (live : ((ofFlow f d.locals.size).entryOf v).contains j = true) :
    ((ofFlow f d.locals.size).exitOf v).contains i = true := by
  have bound := lt_size_of_at? h here
  exact (closed_ofFlow inside bound).1 (out_ofFlow bound (edge.mem_successors valid h) live)

/-- What is needed behind a position and not written there is live on entry to it. -/
theorem live_through (valid : d.Valid) (h : d.flow = .ok f) {x : Instruction}
    (here : d.at? i = some x) (inside : v < d.locals.size) (edge : d.Edge i j)
    (live : ((ofFlow f d.locals.size).entryOf v).contains j = true)
    (unwritten : ∀ w, x.defines = some w → w.index ≠ v) :
    ((ofFlow f d.locals.size).entryOf v).contains i = true := by
  have bound := lt_size_of_at? h here
  obtain ⟨p, found, described⟩ := flow_point valid h here
  apply (closed_ofFlow inside bound).2
  have stored : (Equations.ofFlow f).points[i]? = some p := found
  have out := out_ofFlow bound (edge.mem_successors valid h) live
  have other : (p.defines == some v) = false := by
    rw [described.defines, beq_eq_false_iff_ne]
    intro same
    obtain ⟨w, defines, index⟩ := Option.map_eq_some_iff.mp same
    exact unwritten w defines index
  simp [Equations.into, stored, out, other]

/-- What a handler needs is live on entry to all that it guards. -/
theorem live_before_throw (valid : d.Valid) (h : d.flow = .ok f) {x : Instruction}
    (here : d.at? i = some x) (inside : v < d.locals.size) (throws : d.Throws i j)
    (live : ((ofFlow f d.locals.size).entryOf v).contains j = true) :
    ((ofFlow f d.locals.size).entryOf v).contains i = true := by
  have bound := lt_size_of_at? h here
  apply (closed_ofFlow inside bound).2
  have member := throws.mem_handlerEntries valid h (size_flow h ▸ bound)
  have caught : ((Equations.ofFlow f).handlers.getD i []).any
      ((ofFlow f d.locals.size).entryOf v).contains = true :=
    List.any_eq_true.mpr ⟨j, member, live⟩
  rw [Equations.into, caught, Bool.or_true]

/-- On some way from the position on the local is read, and not written before that. An exception
leaves a position before anything is written there. -/
inductive LiveIn (d : Draft) (v : Nat) : Nat → Prop
  | read {i : Nat} {x : Instruction} {w : Local} (here : d.at? i = some x)
      (uses : x.uses = some w) (same : w.index = v) : LiveIn d v i
  | pass {i j : Nat} {x : Instruction} (here : d.at? i = some x)
      (unwritten : ∀ w, x.defines = some w → w.index ≠ v) (edge : d.Edge i j)
      (later : LiveIn d v j) : LiveIn d v i
  | throw {i j : Nat} {x : Instruction} (here : d.at? i = some x) (throws : d.Throws i j)
      (later : LiveIn d v j) : LiveIn d v i

/-- The local is live on entry to a position that control may come to next. -/
def LiveOut (d : Draft) (v i : Nat) : Prop := ∃ j, d.Edge i j ∧ d.LiveIn v j

theorem Edge.source (edge : d.Edge i j) : ∃ x, d.at? i = some x := by
  cases edge with
  | next here => exact ⟨_, here⟩
  | jump here => exact ⟨_, here⟩
  | ret here => exact ⟨_, here⟩

theorem Throws.source (throws : d.Throws i j) : ∃ x, d.at? i = some x := by
  obtain ⟨handler, -, start, stop, -, last, -, high, -⟩ := throws
  have inside := Nat.lt_trans high (List.getElem?_eq_some_iff.mp last.2).1
  exact ⟨_, Option.map_eq_some_iff.mpr ⟨_, List.getElem?_eq_getElem inside, rfl⟩⟩

theorem LiveIn.source (live : d.LiveIn v i) : ∃ x, d.at? i = some x := by
  cases live with
  | read here => exact ⟨_, here⟩
  | pass here => exact ⟨_, here⟩
  | throw here => exact ⟨_, here⟩

theorem contains_entryOf_of_liveIn (valid : d.Valid) (h : d.flow = .ok f)
    (inside : v < d.locals.size) (live : d.LiveIn v i) :
    ((ofFlow f d.locals.size).entryOf v).contains i = true := by
  induction live with
  | read here uses same => exact same ▸ live_of_uses valid h here uses
  | pass here unwritten edge _ ih => exact live_through valid h here inside edge ih unwritten
  | throw here throws _ ih => exact live_before_throw valid h here inside throws ih

theorem liveOut_of_out (valid : d.Valid) (h : d.flow = .ok f) {entry : BitSet}
    (sound : ∀ j, entry.contains j = true → d.LiveIn v j)
    (out : (Equations.ofFlow f).out entry i = true) : d.LiveOut v i := by
  obtain ⟨j, member, live⟩ := List.any_eq_true.mp out
  refine ⟨j, edge_of_mem_successors valid h ?_, sound j live⟩
  rw [Equations.ofFlow, Array.getD_eq_getD_getElem?, Array.getElem?_map] at member
  cases range : (Array.range f.size)[i]? with
  | none =>
      rw [range] at member
      cases member
  | some k =>
      rw [range] at member
      have same : k = i := by
        obtain ⟨bound, value⟩ := Array.getElem?_eq_some_iff.mp range
        rw [Array.getElem_range] at value
        exact value.symm
      rw [same] at member
      exact member

theorem liveIn_of_into (valid : d.Valid) (h : d.flow = .ok f) {entry : BitSet}
    (sound : ∀ j, entry.contains j = true → d.LiveIn v j)
    (into : (Equations.ofFlow f).into v entry i = true) : d.LiveIn v i := by
  rw [Equations.into, Bool.or_eq_true, Bool.or_eq_true, Bool.and_eq_true, Bool.not_eq_true'] at into
  rcases into with (uses | ⟨out, unwritten⟩) | caught
  · obtain ⟨p, found, reads⟩ := (Option.any_eq_true _ _).mp uses
    obtain ⟨x, here, described⟩ := flow_instruction valid h found
    rw [beq_iff_eq, described.uses] at reads
    obtain ⟨w, uses, same⟩ := Option.map_eq_some_iff.mp reads
    exact .read here uses same
  · obtain ⟨j, edge, live⟩ := liveOut_of_out valid h sound out
    obtain ⟨x, here⟩ := edge.source
    obtain ⟨p, found, described⟩ := flow_point valid h here
    refine .pass here ?_ edge live
    intro w defines same
    have stored : (Equations.ofFlow f).points[i]? = some p := found
    rw [stored, Option.any_some, described.defines, defines, Option.map_some, same] at unwritten
    simp at unwritten
  · obtain ⟨j, member, live⟩ := List.any_eq_true.mp caught
    have throws := throws_of_mem_handlerEntries valid h member
    obtain ⟨x, here⟩ := throws.source
    exact .throw here throws (sound j live)

/-- The sets of entries have exactly the positions on entry to which the local is live. -/
theorem contains_entryOf (valid : d.Valid) (h : d.flow = .ok f) (inside : v < d.locals.size) :
    ((ofFlow f d.locals.size).entryOf v).contains i = true ↔ d.LiveIn v i := by
  refine ⟨?_, contains_entryOf_of_liveIn valid h inside⟩
  rw [entryOf_ofFlow inside]
  exact (ofLocal_within (fun _ _ => liveIn_of_into valid h)
    (fun _ _ => liveOut_of_out valid h)).1 i

/-- The sets of exits have exactly the positions on exit from which the local is live. -/
theorem contains_exitOf (valid : d.Valid) (h : d.flow = .ok f) (inside : v < d.locals.size) :
    ((ofFlow f d.locals.size).exitOf v).contains i = true ↔ d.LiveOut v i := by
  constructor
  · rw [exitOf_ofFlow inside]
    exact (ofLocal_within (fun _ _ => liveIn_of_into valid h)
      (fun _ _ => liveOut_of_out valid h)).2 i
  · rintro ⟨j, edge, live⟩
    obtain ⟨x, here⟩ := edge.source
    exact live_exit valid h here inside edge (contains_entryOf_of_liveIn valid h inside live)

end JvmAssembly.Draft
