import Mathlib
import JvmAssembly.Proofs.Draft.Survey

/-!
Layout comes to an end. From pass to pass no node goes back and the code gets no shorter; a pass
that is not the last takes some node further, and no node goes past the longest code. Nodes are
put in meanwhile, but only as many as there is room for the far jumps among them.
-/
namespace JvmAssembly

def Instruction.isFarJump : Instruction → Bool
  | .branch op _ => op.isFar
  | _ => false

namespace Draft

open Layout.Pass

variable {d d' : Draft} {pool : Pool} {offsets : Offsets} {start stop : Nat} {nodes : List NodeId}

def farJumps (d : Draft) : Nat := d.order.toList.countP fun n => (d.instructionAt n).isFarJump

/-- A far jump takes five bytes. -/
theorem Laid.farJumps_le (h : Laid d pool offsets start nodes stop) :
    start + 5 * nodes.countP (fun n => (d.instructionAt n).isFarJump) ≤ stop := by
  induction h with
  | nil offset => simp
  | @cons start mid stop node rest here span later ih =>
      have ahead := span.le
      rw [List.countP_cons]
      split
      · rename_i far
        have wide : mid = start + 5 := by
          cases found : d.instructionAt node with
          | branch op target =>
              rw [found] at far span
              have long : op.isFar = true := far
              rw [span.branch, if_pos long]
          | _ => simp [found, Instruction.isFarJump] at far
        omega
      · omega

/-- The two nodes that a widened condition adds come with one more far jump. -/
theorem Widens.size_le (w : Widens d d') (valid : d.Valid) :
    d'.nodes.size + 2 * d.farJumps ≤ d.nodes.size + 2 * d'.farJumps := by
  cases w with
  | @jump node op far target member found form =>
      have near : (d.instructionAt node).isFarJump = false := by
        rw [found]
        exact Opcode.isFar_of_widened (.inl form)
      have more : d.farJumps ≤ (d.setInstruction node (.branch far target)).farJumps := by
        apply List.countP_mono_left
        intro n _ wide
        have other : n ≠ node := by
          rintro rfl
          rw [near] at wide
          cases wide
        rw [instructionAt_setInstruction_ne d _ other]
        exact wide
      rw [size_setInstruction]
      omega
  | @condition node op inverted target member found form opposite =>
      obtain ⟨before, after, split⟩ := List.append_of_mem member
      have inside := valid.inside member
      have order := widenCondition.order_toList valid split inverted target
      have nodup := valid.nodup
      rw [split, List.nodup_middle, List.nodup_cons, List.mem_append, not_or] at nodup
      have others : ∀ n, n ∈ before ∨ n ∈ after →
          (d.widenCondition node inverted target).instructionAt n = d.instructionAt n := by
        intro n side
        refine widenCondition.atOther (valid.inside ?_) ?_
        · rw [split]
          rcases side with early | late
          · simp [early]
          · simp [late]
        · rintro rfl
          exact side.elim nodup.1.1 nodup.1.2
      have same : ∀ side : List NodeId, (∀ n ∈ side, n ∈ before ∨ n ∈ after) →
          side.countP (fun n =>
            ((d.widenCondition node inverted target).instructionAt n).isFarJump) =
          side.countP (fun n => (d.instructionAt n).isFarJump) := by
        intro side known
        apply List.countP_congr
        intro n member
        rw [others n (known n member)]
      have atNode : (d.instructionAt node).isFarJump = false := by
        rw [found]
        exact Opcode.isFar_of_widened (.inr opposite)
      have atNode' :
          ((d.widenCondition node inverted target).instructionAt node).isFarJump = false := by
        rw [widenCondition.atNode inside]
        exact Opcode.isFar_of_widened (.inr (Opcode.invert?_invert? opposite))
      have atJump : ((d.widenCondition node inverted target).instructionAt
          (d.nodes.size + 1)).isFarJump = true := by
        rw [widenCondition.atJump inside]
        rfl
      have more : d.farJumps + 1 ≤ (d.widenCondition node inverted target).farJumps := by
        unfold farJumps
        rw [order, split]
        simp only [List.countP_append, List.countP_cons, same before fun _ => .inl,
          same after fun _ => .inr, atNode, atNode', atJump]
        simp only [Bool.false_eq_true, if_false, if_true]
        omega
      rw [widenCondition.size]
      omega

theorem size_le_of_widened (valid : d.Valid) (w : Widened d d') :
    d'.nodes.size ≤ d.nodes.size + 2 * d'.farJumps := by
  have grown : d'.nodes.size + 2 * d.farJumps ≤ d.nodes.size + 2 * d'.farJumps := by
    induction w with
    | refl => exact Nat.le_refl _
    | tail first last ih =>
        have more := last.size_le (valid_widened valid first)
        omega
  omega

end Draft

/-- How far the first nodes have come, all in all. -/
def Offsets.progress (offsets : Offsets) (bound : Nat) : Nat :=
  ∑ n ∈ Finset.range bound, (offsets.of? n).elim 0 (· + 1)

namespace Offsets

variable {offsets offsets' : Offsets} {bound : Nat}

theorem progress_le {limit : Nat} (short : ∀ n offset, offsets.of? n = some offset → offset ≤ limit) :
    offsets.progress bound ≤ bound * (limit + 1) := by
  have each : ∀ n ∈ Finset.range bound, (offsets.of? n).elim 0 (· + 1) ≤ limit + 1 := by
    intro n _
    cases known : offsets.of? n with
    | none => exact Nat.zero_le _
    | some offset => exact Nat.succ_le_succ (short n offset known)
  have all := Finset.sum_le_card_nsmul _ _ _ each
  rw [Finset.card_range, smul_eq_mul] at all
  exact all

theorem progress_lt
    (forward : ∀ n offset, offsets.of? n = some offset →
      ∃ offset', offsets'.of? n = some offset' ∧ offset ≤ offset')
    {n : Nat} (inside : n < bound) (moved : offsets'.of? n ≠ offsets.of? n) :
    offsets.progress bound < offsets'.progress bound := by
  have weigh : ∀ n, (offsets.of? n).elim 0 (· + 1) ≤ (offsets'.of? n).elim 0 (· + 1) := by
    intro n
    cases known : offsets.of? n with
    | none => exact Nat.zero_le _
    | some offset =>
        obtain ⟨offset', known', further⟩ := forward n offset known
        rw [known']
        exact Nat.succ_le_succ further
  refine Finset.sum_lt_sum (fun n _ => weigh n) ⟨n, Finset.mem_range.mpr inside, ?_⟩
  cases known : offsets.of? n with
  | none =>
      rw [known] at moved
      obtain ⟨offset', known'⟩ := Option.ne_none_iff_exists'.mp moved
      rw [known']
      exact Nat.succ_pos _
  | some offset =>
      obtain ⟨offset', known', further⟩ := forward n offset known
      rw [known, known'] at moved
      rw [known']
      have other : offset' ≠ offset := fun same => moved (congrArg some same)
      simp only [Option.elim_some]
      omega

end Offsets

namespace Layout

open Draft Pass

variable {pool : Pool} {d : Draft} {offsets : Offsets}

/-- How a layout ends with a pass, if it does. -/
def ending : Except Fault Unit × Pass → Option (Except Fault Layout × Draft)
  | (.error fault, p) => some (.error fault, p.draft)
  | (.ok (), p) =>
    if p.code.size > 65535 then some (.error (.codeOverflow p.code.size), p.draft)
    else if !p.moved && p.settled then some (.ok ⟨p.code.toList, p.offsets⟩, p.draft)
    else none

/-- The passes of a layout, numbered from zero. -/
def nth (pool : Pool) (offsets : Offsets) (d : Draft) : Nat → Option (Except Fault Unit × Pass)
  | 0 => some (pass pool d offsets)
  | k + 1 =>
    match ending (pass pool d offsets) with
    | some _ => none
    | none => nth pool (pass pool d offsets).2.offsets (pass pool d offsets).2.draft k

theorem settle_succ (pool : Pool) (budget : Nat) (offsets : Offsets) (d : Draft) :
    settle pool (budget + 1) offsets d =
      (ending (pass pool d offsets)).getD
        (settle pool budget (pass pool d offsets).2.offsets (pass pool d offsets).2.draft) := by
  rw [settle]
  obtain ⟨result, p⟩ := pass pool d offsets
  cases result with
  | error fault => rfl
  | ok done =>
      simp only [ending]
      split
      · rfl
      · split <;> rfl

theorem ending_eq_none {out : Except Fault Unit × Pass} (h : ending out = none) :
    ∃ p, out = (.ok (), p) ∧ p.code.size ≤ 65535 ∧ ¬ (p.moved = false ∧ p.settled = true) := by
  obtain ⟨result, p⟩ := out
  cases result with
  | error fault => cases h
  | ok done =>
      simp only [ending] at h
      split at h
      · cases h
      · rename_i short
        split at h
        · cases h
        · rename_i again
          refine ⟨p, rfl, Nat.le_of_not_lt short, ?_⟩
          simpa using again

/-- A pass that follows another one begins where that has ended. -/
theorem nth_succ {k : Nat} {out next : Except Fault Unit × Pass} (h : nth pool offsets d k = some out)
    (h' : nth pool offsets d (k + 1) = some next) :
    ending out = none ∧ next = pass pool out.2.draft out.2.offsets := by
  induction k generalizing offsets d with
  | zero =>
      cases h
      rw [nth] at h'
      cases goes : ending (pass pool d offsets) with
      | some result =>
          rw [goes] at h'
          cases h'
      | none =>
          rw [goes] at h'
          cases h'
          exact ⟨rfl, rfl⟩
  | succ k ih =>
      rw [nth] at h h'
      cases goes : ending (pass pool d offsets) with
      | some result =>
          rw [goes] at h
          cases h
      | none =>
          rw [goes] at h h'
          exact ih h h'

theorem nth_eq_none {k : Nat} {out : Except Fault Unit × Pass} (h : nth pool offsets d k = some out)
    (last : ending out ≠ none) {j : Nat} (past : k < j) : nth pool offsets d j = none := by
  induction k generalizing offsets d j with
  | zero =>
      cases h
      obtain ⟨j, rfl⟩ := Nat.exists_eq_succ_of_ne_zero (Nat.ne_of_gt past)
      rw [nth]
      cases goes : ending (pass pool d offsets) with
      | some result => rfl
      | none => exact absurd goes last
  | succ k ih =>
      obtain ⟨j, rfl⟩ := Nat.exists_eq_succ_of_ne_zero (Nat.ne_of_gt (Nat.zero_lt_of_lt past))
      rw [nth] at h ⊢
      cases goes : ending (pass pool d offsets) with
      | some result => rfl
      | none =>
          rw [goes] at h
          exact ih h (Nat.lt_of_succ_lt_succ past)

/-- Where a layout stands between two passes. -/
structure Between (pool : Pool) (first d : Draft) (offsets : Offsets) : Prop where
  start : first.Valid
  widened : Widened first d
  ready : Ready d offsets
  laid : (∀ n, offsets.of? n = none) ∨
    ∃ stop ≤ 65535, d.Laid pool offsets 0 d.order.toList stop

namespace Between

variable {first : Draft} {p : Pass}

theorem short (b : Between pool first d offsets) {n offset : Nat}
    (known : offsets.of? n = some offset) : offset ≤ 65535 := by
  rcases b.laid with unknown | ⟨stop, short, laid⟩
  · rw [unknown] at known
    cases known
  · have placed : n ∈ d.order.toList := by
      by_contra absent
      rw [b.ready.unplaced n absent] at known
      cases known
    obtain ⟨offset', known', le⟩ := laid.known placed
    rw [known] at known'
    cases known'
    exact Nat.le_trans le short

theorem forward (b : Between pool first d offsets) {result : Except Fault Unit}
    (h : pass pool d offsets = (result, p)) {n offset : Nat} (known : offsets.of? n = some offset) :
    ∃ offset', p.offsets.of? n = some offset' ∧ offset ≤ offset' := by
  rcases b.laid with unknown | ⟨stop, -, laid⟩
  · rw [unknown] at known
    cases known
  · exact (pass_forward b.ready laid h).1 n offset known

theorem next (b : Between pool first d offsets) (h : pass pool d offsets = (.ok (), p))
    (short : p.code.size ≤ 65535) : Between pool first p.draft p.offsets := by
  obtain ⟨ready, laid⟩ := pass_ready b.ready h
  exact ⟨b.start, b.widened.trans (pass_widens b.ready.valid h), ready, .inr ⟨_, short, laid⟩⟩

theorem size_le (b : Between pool first d offsets) (h : pass pool d offsets = (.ok (), p))
    (short : p.code.size ≤ 65535) : p.draft.nodes.size ≤ first.nodes.size + 26214 := by
  obtain ⟨-, laid⟩ := pass_ready b.ready h
  have room : 0 + 5 * p.draft.farJumps ≤ p.code.size := laid.farJumps_le
  have grown := size_le_of_widened b.start (b.next h short).widened
  omega

/-- A pass that is not the last one makes progress. -/
theorem progress_lt (b : Between pool first d offsets) (h : pass pool d offsets = (.ok (), p))
    (short : p.code.size ≤ 65535) (again : ¬ (p.moved = false ∧ p.settled = true)) :
    offsets.progress (first.nodes.size + 26214) < p.offsets.progress (first.nodes.size + 26214) := by
  have moved : ∃ n ∈ p.draft.order.toList, p.offsets.of? n ≠ offsets.of? n := by
    by_contra none
    push Not at none
    exact again (pass_still b.ready h none)
  obtain ⟨n, member, other⟩ := moved
  have inside := (b.next h short).ready.valid.inside member
  exact Offsets.progress_lt (fun _ _ => b.forward h)
    (Nat.lt_of_lt_of_le inside (b.size_le h short)) other

/-- Passes come to an end before there is no room for progress. -/
theorem exists_last {budget : Nat} (b : Between pool first d offsets)
    (enough : (first.nodes.size + 26214) * 65536 <
      offsets.progress (first.nodes.size + 26214) + budget) :
    ∃ last < budget, ∃ out, nth pool offsets d last = some out ∧
      ending out = some (settle pool budget offsets d) := by
  induction budget generalizing offsets d with
  | zero =>
      have most : offsets.progress (first.nodes.size + 26214) ≤ _ :=
        Offsets.progress_le fun _ _ => b.short
      omega
  | succ budget ih =>
      rw [settle_succ]
      cases ends : ending (pass pool d offsets) with
      | some result => exact ⟨0, Nat.succ_pos _, _, rfl, ends⟩
      | none =>
          obtain ⟨p, passed, short, again⟩ := ending_eq_none ends
          have further := b.progress_lt passed short again
          have later : Between pool first p.draft p.offsets := b.next passed short
          obtain ⟨last, bound, out, found, ended⟩ := ih later (by omega)
          refine ⟨last + 1, Nat.succ_lt_succ bound, out, ?_, ?_⟩
          · rw [nth, ends, passed]
            exact found
          · rw [passed]
            exact ended

end Between

end Layout

namespace Draft

open Layout

variable {d : Draft} {pool : Pool}

/-- The passes that the layout of a draft goes through, numbered from zero. -/
def passes (pool : Pool) (d : Draft) : Nat → Option (Except Fault Unit × Pass) :=
  nth pool (Array.replicate d.nodes.size none) d

theorem between_start (valid : d.Valid)
    (targets : ∀ n ∈ d.order.toList, ∀ label ∈ (d.instructionAt n).targets,
      label.node ∈ d.order.toList) :
    Between pool d d (Array.replicate d.nodes.size none) :=
  ⟨valid, .refl, ready_start valid targets, .inl (Offsets.of?_replicate_none _)⟩

theorem exists_last_pass
    (b : Between pool d d (Array.replicate d.nodes.size none)) :
    ∃ last < passBudget d, ∃ out, d.passes pool last = some out ∧
      ending out = some (d.layout pool) := by
  by_cases bare : d.nodes.size = 0
  · -- Without a node there is nothing to write, and the first pass is the last.
    have empty : d.order.toList = [] := by
      rw [List.eq_nil_iff_forall_not_mem]
      intro n member
      have inside := b.start.inside member
      omega
    obtain ⟨result, ends⟩ :
        ∃ result, ending (pass pool d (Array.replicate d.nodes.size none)) = some result := by
      unfold Layout.pass
      rw [empty]
      exact ⟨_, rfl⟩
    refine ⟨0, Nat.succ_pos _, _, rfl, ?_⟩
    rw [layout, passBudget, settle_succ, ends]
    rfl
  · refine b.exists_last ?_
    unfold passBudget
    omega

/-- A pass has its place in a layout. -/
theorem between_passes {first : Draft} {offsets : Offsets} (b : Between pool first d offsets) {k : Nat}
    {p : Pass} (h : nth pool offsets d k = some (.ok (), p)) :
    Ready p.draft p.offsets ∧
      p.draft.Laid pool p.offsets 0 p.draft.order.toList p.code.size := by
  induction k generalizing offsets d with
  | zero =>
      rw [nth, Option.some.injEq] at h
      exact pass_ready b.ready h
  | succ k ih =>
      rw [nth] at h
      cases goes : ending (pass pool d offsets) with
      | some result =>
          rw [goes] at h
          cases h
      | none =>
          obtain ⟨q, passed, size, -⟩ := ending_eq_none goes
          rw [goes, passed] at h
          exact ih (b.next passed size) h

/-- A layout with all its targets placed comes to an end. From each of its passes to the next, no
node goes back and the code does not get shorter. -/
theorem layout_terminates (reachable : d.Reachable)
    (placed : ∀ n ∈ d.order.toList, ∀ label ∈ (d.instructionAt n).targets,
      d.isPlaced label = true) (pool : Pool) :
    (∃ last < passBudget d, ∃ out, d.passes pool last = some out ∧
      ending out = some (d.layout pool) ∧ ∀ k > last, d.passes pool k = none) ∧
    ∀ (k : Nat) (result result' : Except Fault Unit) (p p' : Pass),
      d.passes pool k = some (result, p) → d.passes pool (k + 1) = some (result', p') →
        (∀ n ∈ p.draft.order.toList, ∃ offset offset', p.offsets.of? n = some offset ∧
          p'.offsets.of? n = some offset' ∧ offset ≤ offset') ∧
        (result' = .ok () → p.code.size ≤ p'.code.size) := by
  have valid := reachable.valid
  have b : Between pool d d (Array.replicate d.nodes.size none) :=
    between_start valid fun n member label target =>
      mem_order_of_isPlaced valid (placed n member label target)
  constructor
  · obtain ⟨last, bound, out, found, ends⟩ := exists_last_pass b
    refine ⟨last, bound, out, found, ends, ?_⟩
    intro k past
    exact nth_eq_none found (by rw [ends]; exact Option.some_ne_none _) past
  · intro k result result' p p' now next
    obtain ⟨goes, follows⟩ := nth_succ now next
    obtain ⟨q, same, -⟩ := ending_eq_none goes
    cases same
    obtain ⟨ready, laid⟩ := between_passes b now
    obtain ⟨forward, reaches⟩ := pass_forward ready laid follows.symm
    refine ⟨?_, reaches⟩
    intro n member
    obtain ⟨offset, known, -⟩ := laid.known member
    obtain ⟨offset', known', le⟩ := forward n offset known
    exact ⟨offset, offset', known, known', le⟩

/-- A loop that leaves when its condition fails. -/
def waiting : Draft :=
  let d := (placeLabel ⟨0, 0⟩ (empty 0).createLabel.2).2.createLabel.2
  let d := (push (.branch Opcode.ifne ⟨0, 1⟩) d).2
  let d := (push (.branch Opcode.goto ⟨0, 0⟩) d).2
  let d := (placeLabel ⟨0, 1⟩ d).2
  (push (.simple Opcode.returnVoid) d).2

theorem reachable_waiting : waiting.Reachable :=
  (((((Reachable.empty 0).createLabel.placeLabel _).createLabel.push _).push _).placeLabel _).push _

theorem layout_terminates_waiting :
    waiting.Reachable ∧ (∀ n ∈ waiting.order.toList, ∀ label ∈ (waiting.instructionAt n).targets,
      waiting.isPlaced label = true) ∧
      (∃ last < passBudget waiting, ∃ out, waiting.passes .empty last = some out ∧
        ending out = some (waiting.layout .empty) ∧ ∀ k > last, waiting.passes .empty k = none) ∧
      ∃ p p', waiting.passes .empty 0 = some (.ok (), p) ∧
        waiting.passes .empty 1 = some (.ok (), p') ∧
        p.code = #[Opcode.ifne, 0, 0, Opcode.goto, 255, 253, Opcode.returnVoid] ∧
        p'.code = #[Opcode.ifne, 0, 6, Opcode.goto, 255, 253, Opcode.returnVoid] ∧
        p.code.size ≤ p'.code.size := by
  have placed : ∀ n ∈ waiting.order.toList, ∀ label ∈ (waiting.instructionAt n).targets,
      waiting.isPlaced label = true := by decide
  obtain ⟨ends, grows⟩ := layout_terminates reachable_waiting placed .empty
  exact ⟨reachable_waiting, placed, ends, _, _, rfl, rfl, rfl, rfl,
    (grows 0 (.ok ()) (.ok ()) _ _ rfl rfl).2 rfl⟩

end Draft

end JvmAssembly
