import Mathlib
import JvmAssembly.Proofs.Draft.Liveness
import JvmAssembly.Proofs.Draft.ValueFlow

/-!
Liveness by the ways that control may take. A local is live where some way leads to a read of it
and no position on the way writes it, unless an exception leaves that position. The sweeps for it
come to an end, also for a local that is never read, where the first one finds nothing.
-/
namespace JvmAssembly.Liveness

variable {eqs : Equations} {v : Nat}

/-- Sets of a local after so many sweeps, beginning with empty ones. -/
def Equations.sweeps (eqs : Equations) (v : Nat) : Nat → Sweep
  | 0 => ⟨.empty eqs.points.size, .empty eqs.points.size, false⟩
  | k + 1 => Sweep.run eqs v eqs.points.size { eqs.sweeps v k with grown := false }

/-- The sweeps up to one add something and that one does not. -/
structure Equations.EndsAt (eqs : Equations) (v last : Nat) : Prop where
  grows : ∀ k < last, (eqs.sweeps v (k + 1)).grown = true
  still : (eqs.sweeps v (last + 1)).grown = false

theorem fits_sweeps (eqs : Equations) (v k : Nat) : (eqs.sweeps v k).Fits eqs.points.size := by
  induction k with
  | zero => exact ⟨BitSet.sound_empty _, BitSet.sound_empty _, rfl, rfl⟩
  | succ k ih =>
      have fresh : Sweep.Fits eqs.points.size { eqs.sweeps v k with grown := false } :=
        ⟨ih.entry, ih.exit, ih.entryCapacity, ih.exitCapacity⟩
      exact fresh.run (Nat.le_refl _)

/-- Each sweep that adds something makes the sets larger. -/
theorem le_weight_sweeps {k : Nat} (grows : ∀ j < k, (eqs.sweeps v (j + 1)).grown = true) :
    k ≤ (eqs.sweeps v k).weight eqs.points.size := by
  induction k with
  | zero => exact Nat.zero_le _
  | succ k ih =>
      have fits := fits_sweeps eqs v k
      have fresh : Sweep.Fits eqs.points.size { eqs.sweeps v k with grown := false } :=
        ⟨fits.entry, fits.exit, fits.entryCapacity, fits.exitCapacity⟩
      have before := ih fun j inside => grows j (Nat.lt_succ_of_lt inside)
      have larger := Sweep.weight_run_lt fresh (Nat.le_refl _) rfl (grows k (Nat.lt_succ_self k))
      exact Nat.lt_of_le_of_lt before larger

/-- One of the first sweeps adds nothing, and there are at most twice as many before it as there
are positions. -/
theorem exists_endsAt (eqs : Equations) (v : Nat) :
    ∃ last ≤ 2 * eqs.points.size, eqs.EndsAt v last := by
  have stops : ∃ k, (eqs.sweeps v (k + 1)).grown = false := by
    by_contra never
    push Not at never
    have larger := @le_weight_sweeps eqs v (2 * eqs.points.size + 1) fun j _ =>
      Bool.not_eq_false _ ▸ never j
    have bound := Sweep.weight_le eqs.points.size (eqs.sweeps v (2 * eqs.points.size + 1))
    omega
  have grows : ∀ k < Nat.find stops, (eqs.sweeps v (k + 1)).grown = true := fun k before =>
    Bool.not_eq_false _ ▸ Nat.find_min stops before
  refine ⟨Nat.find stops, ?_, grows, Nat.find_spec stops⟩
  exact (le_weight_sweeps grows).trans (Sweep.weight_le _ _)

/-- Settling goes on to the last sweep if the budget lasts. -/
theorem settle_sweeps {last : Nat} (ends : eqs.EndsAt v last) {k budget : Nat} (le : k ≤ last)
    (enough : last < k + budget) :
    Sweep.settle eqs v budget (eqs.sweeps v k) = eqs.sweeps v (last + 1) := by
  induction budget generalizing k with
  | zero => omega
  | succ budget ih =>
      have next : Sweep.run eqs v eqs.points.size { eqs.sweeps v k with grown := false } =
          eqs.sweeps v (k + 1) := rfl
      rw [Sweep.settle, next]
      rcases Nat.lt_or_eq_of_le le with before | rfl
      · rw [if_pos (ends.grows k before)]
        exact ih before (by omega)
      · rw [ends.still, if_neg Bool.false_ne_true]

/-- The live sets are those of the last sweep, whether or not the local is ever read. -/
theorem ofLocal_eq_sweeps {last : Nat} (ends : eqs.EndsAt v last)
    (bound : last ≤ 2 * eqs.points.size) :
    ofLocal eqs v = ⟨(eqs.sweeps v (last + 1)).entry, (eqs.sweeps v (last + 1)).exit⟩ := by
  have solves := solves_ofLocal eqs v
  unfold ofLocal at solves ⊢
  dsimp only at solves ⊢
  split
  · have settled : Sweep.settle eqs v (2 * eqs.points.size + 1) (eqs.sweeps v 0) =
        eqs.sweeps v (last + 1) := settle_sweeps ends (Nat.zero_le _) (by omega)
    rw [Equations.sweeps] at settled
    rw [settled]
  · rename_i unread
    rw [if_neg unread] at solves
    -- Empty sets are closed already, so the first sweep adds nothing and is the last.
    have first : eqs.sweeps v 1 = eqs.sweeps v 0 :=
      Sweep.run_of_closed (fits_sweeps eqs v 0) solves.closed
    cases last with
    | zero => rw [first]; rfl
    | succ last =>
        have grown := ends.grows 0 (Nat.succ_pos last)
        rw [first] at grown
        cases grown

end JvmAssembly.Liveness

namespace JvmAssembly.Draft

open Liveness

variable {d : Draft} {v i : Nat}

/-- The instruction at the position reads the local. -/
def Reads (d : Draft) (v i : Nat) : Prop :=
  ∃ x w, d.at? i = some x ∧ x.uses = some w ∧ w.index = v

/-- Control may go from one position to the other, and the local still has the value it had. An
exception leaves a position before anything is written there. -/
def Carries (d : Draft) (v i j : Nat) : Prop :=
  d.Edge i j ∧ (∀ x w, d.at? i = some x → x.defines = some w → w.index ≠ v) ∨ d.Throws i j

theorem liveIn_iff_carried :
    d.LiveIn v i ↔ ∃ q, Relation.ReflTransGen (d.Carries v) i q ∧ d.Reads v q := by
  constructor
  · intro live
    induction live with
    | read here uses same => exact ⟨_, .refl, _, _, here, uses, same⟩
    | pass here unwritten edge _ ih =>
        obtain ⟨q, way, reads⟩ := ih
        refine ⟨q, .head (.inl ⟨edge, ?_⟩) way, reads⟩
        intro x w found
        cases here.symm.trans found
        exact unwritten w
    | throw _ throws _ ih =>
        obtain ⟨q, way, reads⟩ := ih
        exact ⟨q, .head (.inr throws) way, reads⟩
  · rintro ⟨q, way, reads⟩
    induction way using Relation.ReflTransGen.head_induction_on with
    | refl =>
        obtain ⟨x, w, here, uses, same⟩ := reads
        exact .read here uses same
    | head step _ ih =>
        rcases step with ⟨edge, unwritten⟩ | throws
        · obtain ⟨x, here⟩ := edge.source
          exact .pass here (fun w => unwritten x w here) edge ih
        · obtain ⟨x, here⟩ := throws.source
          exact .throw here throws ih

/-- Liveness is exact. A local is live on entry to a position if and only if a way of finite length
carries it from there to a read, and on exit from one if and only if it is live on entry to some
position that control may come to next. The sweeps of every local end, and leave these sets. -/
theorem contains_iff_carried (reachable : d.Reachable) (placed : d.LabelsPlaced) :
    ∃ f, d.flow = .ok f ∧ ∀ v < d.locals.size,
      (∀ p, ((ofFlow f d.locals.size).entryOf v).contains p = true ↔
        ∃ q, Relation.ReflTransGen (d.Carries v) p q ∧ d.Reads v q) ∧
      (∀ p, ((ofFlow f d.locals.size).exitOf v).contains p = true ↔
        ∃ q, d.Edge p q ∧ ((ofFlow f d.locals.size).entryOf v).contains q = true) ∧
      ∃ last ≤ 2 * d.order.toList.length, (Equations.ofFlow f).EndsAt v last ∧
        (ofFlow f d.locals.size).sets[v]? = some
          ⟨((Equations.ofFlow f).sweeps v (last + 1)).entry,
            ((Equations.ofFlow f).sweeps v (last + 1)).exit⟩ := by
  have valid := reachable.valid
  obtain ⟨f, flow⟩ := exists_flow valid placed
  refine ⟨f, flow, fun v inside => ⟨?_, ?_, ?_⟩⟩
  · intro p
    rw [contains_entryOf valid flow inside, liveIn_iff_carried]
  · intro p
    rw [contains_exitOf valid flow inside]
    simp only [contains_entryOf valid flow inside]
    rfl
  · obtain ⟨last, bound, ends⟩ := exists_endsAt (Equations.ofFlow f) v
    refine ⟨last, ?_, ends, ?_⟩
    · rw [← size_flow flow]
      exact bound
    · rw [← ofLocal_eq_sweeps ends bound]
      simp [ofFlow, inside]

/-- The counter of the loop is carried around it to its increment. What is stored after that is not
carried to any read, neither around the loop nor to the handler. -/
theorem contains_iff_carried_looping :
    looping.Reachable ∧ looping.LabelsPlaced ∧ ∃ f, looping.flow = .ok f ∧
      (∃ q, Relation.ReflTransGen (looping.Carries 0) 8 q ∧ looping.Reads 0 q) ∧
      (¬ ∃ q, Relation.ReflTransGen (looping.Carries 2) 8 q ∧ looping.Reads 2 q) ∧
      (¬ ∃ q, looping.Edge 7 q ∧ ((ofFlow f 3).entryOf 2).contains q = true) ∧
      ∃ last ≤ 22, (Equations.ofFlow f).EndsAt 0 last := by
  have placed : looping.LabelsPlaced := ⟨by decide, by decide⟩
  obtain ⟨f, flow, exactly⟩ := contains_iff_carried reachable_looping placed
  have computed : (looping.flow.toOption.map fun f =>
      (((ofFlow f 3).entryOf 0).contains 8, ((ofFlow f 3).entryOf 2).contains 8,
        ((ofFlow f 3).exitOf 2).contains 7)) = some (true, false, false) := by
    decide +kernel
  rw [flow] at computed
  obtain ⟨counter, stored, behind⟩ : ((ofFlow f 3).entryOf 0).contains 8 = true ∧
      ((ofFlow f 3).entryOf 2).contains 8 = false ∧ ((ofFlow f 3).exitOf 2).contains 7 = false := by
    simpa [Except.toOption] using computed
  obtain ⟨entry, -, last, bound, ends, -⟩ := exactly 0 (by decide)
  obtain ⟨entry', exit', -⟩ := exactly 2 (by decide)
  refine ⟨reachable_looping, placed, f, flow, (entry 8).mp counter, ?_, ?_, last, bound, ends⟩
  · rw [← entry' 8, Bool.not_eq_true]
    exact stored
  · intro next
    exact Bool.false_ne_true (behind.symm.trans ((exit' 7).mpr next))

end JvmAssembly.Draft
