import Mathlib
import JvmAssembly.Proofs.Draft.Passes

/-!
Short code has no far jumps. No pass of a layout writes more bytes than the last one, so if these
are few, every jump on the way was near and no pass has changed the draft.
-/
namespace JvmAssembly

/-- No node is past the reach of a jump from the start of the method. -/
def Offsets.Near (offsets : Offsets) : Prop :=
  ∀ n offset, offsets.of? n = some offset → offset ≤ 32767

theorem Draft.encode_near {d : Draft} {pool : Pool} {offsets : Offsets} {offset : Nat}
    {x : Instruction} (near : offsets.Near) (short : offset ≤ 32767) (op : Opcode) (target : Label)
    (distance : Int) : d.encode pool offsets offset x ≠ .ok (.tooFar op target distance) := by
  intro far
  cases x with
  | branch op' target' =>
      rw [encode, Except.ok.injEq, Encoding.branch] at far
      split at far
      · cases far
      · rename_i there known
        have bound := near _ there known
        dsimp only at far
        split at far
        · cases far
        · split at far
          · cases far
          · rename_i out
            exact out ⟨by omega, by omega⟩
  | switch default cases table =>
      simp only [encode, Encoding.switch, Except.ok.injEq] at far
      split at far <;> cases far
  | store v kind discard =>
      cases discard with
      | true => cases far
      | false =>
          obtain ⟨_, _, wrong⟩ := bind_eq_ok.mp far
          cases wrong
  | label | simple => cases far
  | immediate op' n =>
      rw [encode] at far
      split at far <;> cases far
  | constant | invoke | multiNewArray | load | increment | ret =>
      obtain ⟨_, _, wrong⟩ := bind_eq_ok.mp far
      cases wrong

namespace Layout

open Draft Pass

namespace Pass

variable {pool : Pool} {p p' : Pass} {node : NodeId} {rest : List NodeId}

theorem near_mark (near : p.offsets.Near) (short : p.code.size ≤ 32767) (node : NodeId)
    (isLabel : Bool) : (p.mark node isLabel).offsets.Near := by
  unfold mark
  dsimp only
  split
  · exact near
  · intro n offset known
    by_cases other : n = node
    · subst other
      by_cases inside : n < p.offsets.size
      · rw [Offsets.of?_setIfInBounds _ inside] at known
        cases known
        exact short
      · have past : (p.offsets.setIfInBounds n (some p.code.size)).size ≤ n := by
          rw [Array.size_setIfInBounds]
          exact Nat.le_of_not_lt inside
        rw [Offsets.of?_of_size_le past] at known
        cases known
    · rw [Offsets.of?_setIfInBounds_ne _ (Ne.symm other)] at known
      exact near n offset known

/-- A node among near ones is written as it is. -/
theorem step_near (rest : List NodeId) (near : p.offsets.Near) (short : p.code.size ≤ 32767)
    (h : p.step pool node = (.ok (), p')) :
    p'.whole rest = p.whole (node :: rest) ∧ p'.offsets.Near := by
  have marked := near_mark near short node (p.draft.instructionAt node).isLabel
  unfold step at h
  dsimp only at h
  rw [mark_draft, mark_code] at h
  split at h
  · cases h
  · cases h
    refine ⟨?_, marked⟩
    rw [whole_write, whole, mark_draft, mark_order]
    rfl
  · rename_i op target distance far
    exact absurd far (encode_near marked short op target distance)

theorem run_near (valid : (p.whole rest).Valid) (sized : p.Sized) (near : p.offsets.Near)
    (h : run pool rest p = (.ok (), p')) (short : p'.code.size ≤ 32767) :
    p'.whole [] = p.whole rest := by
  induction rest generalizing p with
  | nil =>
      cases h
      rfl
  | cons node rest ih =>
      obtain ⟨nodes, ran⟩ := run_ran valid sized h
      have grown := ran.laid.le
      unfold run at h
      split at h
      · rename_i q stepped
        obtain ⟨same, near'⟩ := step_near rest near (Nat.le_trans grown short) stepped
        rw [← same]
        exact ih (same ▸ valid) (sized_step sized stepped) near' h
      · cases h

end Pass

variable {pool : Pool} {d d' : Draft} {offsets : Offsets} {l : Layout} {p : Pass}

theorem pass_near (ready : Ready d offsets) (near : offsets.Near)
    (h : pass pool d offsets = (.ok (), p)) (short : p.code.size ≤ 32767) : p.draft = d := by
  obtain ⟨q, ran, rfl⟩ := pass_eq h
  have start : Pass.Sized ⟨{ d with order := #[] }, #[], offsets, #[], false, true⟩ := ready.sized
  have same := run_near ((whole_start d offsets).symm ▸ ready.valid) start near ran short
  rw [whole_start] at same
  rw [← same]
  simp [whole]

/-- The layout is no shorter than the code before it. -/
theorem Settles.grows {stop : Nat} (settles : Settles pool offsets d l d')
    (ready : Ready d offsets) (laid : d.Laid pool offsets 0 d.order.toList stop) :
    stop ≤ l.code.length := by
  induction settles generalizing stop with
  | last passed _ _ _ => exact (pass_forward ready laid passed).2 rfl
  | more passed _ ih =>
      obtain ⟨ready', laid'⟩ := pass_ready ready passed
      exact Nat.le_trans ((pass_forward ready laid passed).2 rfl) (ih ready' laid')

theorem Settles.near (settles : Settles pool offsets d l d') (ready : Ready d offsets)
    (near : offsets.Near) (short : l.code.length ≤ 32767) : d' = d := by
  induction settles with
  | last passed _ _ _ => exact pass_near ready near passed short
  | @more _ _ _ p _ passed later ih =>
      obtain ⟨ready', laid⟩ := pass_ready ready passed
      have size := Nat.le_trans (later.grows ready' laid) short
      have near' : p.offsets.Near := by
        intro n offset known
        by_cases member : n ∈ p.draft.order.toList
        · obtain ⟨offset', known', le⟩ := laid.known member
          cases known.symm.trans known'
          exact Nat.le_trans le size
        · rw [ready'.unplaced n member] at known
          cases known
      rw [ih ready' near' short, pass_near ready near passed size]

/-- Layout leaves a draft as it is if the code is within the reach of a near jump. -/
theorem layout_near (valid : d.Valid)
    (targets : ∀ n ∈ d.order.toList, ∀ label ∈ (d.instructionAt n).targets,
      label.node ∈ d.order.toList)
    (h : d.layout pool = (.ok l, d')) (short : l.code.length ≤ 32767) : d' = d := by
  refine (settles_of_settle h).near (ready_start valid targets) ?_ short
  intro n offset known
  rw [Offsets.of?_replicate_none] at known
  cases known

end Layout

end JvmAssembly
