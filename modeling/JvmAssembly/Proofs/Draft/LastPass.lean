import Mathlib
import JvmAssembly.Proofs.Draft.Widening
import JvmAssembly.Proofs.Opcode

/-!
The last pass of a layout. It moves no label, so every distance it writes is between places that
are final: each node has the bytes that its instruction gets at the offset recorded for it, with
the offsets that the layout returns.
-/
namespace JvmAssembly

theorem Offsets.of?_setIfInBounds_ne (offsets : Offsets) {n m : Nat} (other : n ≠ m)
    (x : Option Nat) : of? (offsets.setIfInBounds n x) m = offsets.of? m := by
  unfold of?
  rw [Array.getElem?_setIfInBounds_ne other]

theorem Offsets.of?_setIfInBounds (offsets : Offsets) {n : Nat} (inside : n < offsets.size)
    (x : Option Nat) : of? (offsets.setIfInBounds n x) n = x := by
  unfold of?
  rw [Array.getElem?_setIfInBounds_self_of_lt inside]

/-- Nodes in order and their bytes: each node is at its offset and has the bytes of its
instruction there, with every target known. -/
inductive Written (d : Draft) (pool : Pool) (offsets : Offsets) : Nat → List NodeId → Bytes → Prop
  | nil (offset : Nat) : Written d pool offsets offset [] []
  | cons {offset : Nat} {node : NodeId} {rest : List NodeId} {code more : Bytes}
      (here : offsets.of? node = some offset)
      (bytes : d.encode pool offsets offset (d.instructionAt node) = .ok (.bytes code true))
      (later : Written d pool offsets (offset + code.length) rest more) :
      Written d pool offsets offset (node :: rest) (code ++ more)

namespace Encoding

variable {offsets offsets' : Offsets} {offset : Nat}

theorem jump_congr {label : Label} (same : offsets.of? label.node = offsets'.of? label.node) :
    jump offsets offset label = jump offsets' offset label := by
  unfold jump
  rw [same]

theorem mem_tableLabels {default label : Label} {n : Nat} {key : Int} {done : Array Label}
    {cases : List (Int32 × Label)} (h : label ∈ tableLabels default done n key cases) :
    label ∈ done.toList ∨ label = default ∨ label ∈ cases.map (·.2) := by
  have pushed : ∀ {done : Array Label} {last : Label}, label ∈ (done.push last).toList →
      label ∈ done.toList ∨ label = last := by
    intro done last member
    simpa using member
  fun_induction tableLabels default done n key cases with
  | case1 => exact .inl h
  | case2 done key n ih =>
      rcases ih h with old | other
      · exact (pushed old).imp_right .inl
      · exact .inr other
  | case3 done n c cs ih =>
      rcases ih h with old | rfl | later
      · rcases pushed old with old | rfl
        · exact .inl old
        · exact .inr (.inr (List.mem_map_of_mem (List.mem_cons_self ..)))
      · exact .inr (.inl rfl)
      · exact .inr (.inr (List.mem_cons_of_mem _ later))
  | case4 done key n c cs other ih =>
      rcases ih h with old | rest
      · exact (pushed old).imp_right .inl
      · exact .inr rest

theorem flatMap_congr {α : Type} {xs : List α} {f g : α → Bytes} (h : ∀ x ∈ xs, f x = g x) :
    xs.flatMap f = xs.flatMap g := by
  rw [List.flatMap_def, List.flatMap_def, List.map_congr_left h]

theorem switch_congr {default : Label} {cases : List (Int32 × Label)} {table : Bool}
    (same : ∀ label ∈ cases.map (·.2) ++ [default],
      offsets.of? label.node = offsets'.of? label.node) :
    switch offsets offset default cases table = switch offsets' offset default cases table := by
  have atDefault := same default (by simp)
  have atCase : ∀ c ∈ cases, offsets.of? c.2.node = offsets'.of? c.2.node := by
    intro c member
    exact same c.2 (List.mem_append_left _ (List.mem_map_of_mem member))
  have known : (cases.all fun c => (offsets.of? c.2.node).isSome) =
      cases.all fun c => (offsets'.of? c.2.node).isSome := by
    rw [Bool.eq_iff_iff, List.all_eq_true, List.all_eq_true]
    exact forall₂_congr fun c member => by rw [atCase c member]
  have inTable : ∀ n key, (tableLabels default #[] n key cases).flatMap (jump offsets offset) =
      (tableLabels default #[] n key cases).flatMap (jump offsets' offset) := by
    intro n key
    apply flatMap_congr
    intro label member
    apply jump_congr
    rcases mem_tableLabels member with none | rfl | later
    · simp at none
    · exact atDefault
    · exact same label (List.mem_append_left _ later)
  have inList : (cases.flatMap fun c => be32 c.1.toUInt32 ++ jump offsets offset c.2) =
      cases.flatMap fun c => be32 c.1.toUInt32 ++ jump offsets' offset c.2 := by
    apply flatMap_congr
    intro c member
    rw [jump_congr (atCase c member)]
  unfold switch switchTable switchList
  simp only [atDefault, known, inTable, inList, jump_congr atDefault]

end Encoding

namespace Draft

/-- Bytes depend on slots and on the offsets of targets only. -/
theorem encode_congr {d d' : Draft} {pool : Pool} {offsets offsets' : Offsets} {offset : Nat}
    {x : Instruction} (locals : d.locals = d'.locals)
    (same : ∀ label ∈ x.targets, offsets.of? label.node = offsets'.of? label.node) :
    d.encode pool offsets offset x = d'.encode pool offsets' offset x := by
  have slots : ∀ v, d.slotOf v = d'.slotOf v := by
    intro v
    unfold slotOf
    rw [locals]
  cases x with
  | branch op target =>
      have there := same target (List.mem_singleton.mpr rfl)
      simp only [encode, Encoding.branch, there]
  | switch default cases table =>
      simp only [encode]
      rw [Encoding.switch_congr same]
  | store target kind discard => cases discard <;> simp only [encode, slots]
  | _ => simp only [encode, slots]

end Draft

/-- What is written does not depend on the sequence that the draft keeps. -/
theorem written_reorder {d : Draft} {order : Array NodeId} {pool : Pool} {offsets : Offsets}
    {offset : Nat} {nodes : List NodeId} {code : Bytes}
    (h : Written d pool offsets offset nodes code) :
    Written { d with order } pool offsets offset nodes code := by
  induction h with
  | nil offset => exact .nil offset
  | cons here bytes _ ih =>
      exact .cons here ((Draft.encode_congr rfl fun _ _ => rfl).trans bytes) ih

namespace Layout.Pass

open Draft

variable {pool : Pool} {p p' : Pass} {node : Nat} {isLabel : Bool} {rest : List NodeId}

/-- Every node of the draft has a cell for its offset. -/
def Sized (p : Pass) : Prop := p.offsets.size = p.draft.nodes.size

theorem size_mark : (p.mark node isLabel).offsets.size = p.offsets.size := by
  unfold mark
  dsimp only
  split
  · rfl
  · exact Array.size_setIfInBounds

theorem of?_mark (inside : node < p.offsets.size) :
    (p.mark node isLabel).offsets.of? node = some p.code.size := by
  unfold mark
  dsimp only
  split
  · assumption
  · exact Offsets.of?_setIfInBounds _ inside _

theorem of?_mark_ne {n : Nat} (other : n ≠ node) :
    (p.mark node isLabel).offsets.of? n = p.offsets.of? n := by
  unfold mark
  dsimp only
  split
  · rfl
  · exact Offsets.of?_setIfInBounds_ne _ (Ne.symm other) _

/-- A label that does not move had its offset before. -/
theorem of?_mark_label (still : (p.mark node true).moved = false) (n : Nat) :
    (p.mark node true).offsets.of? n = p.offsets.of? n := by
  unfold mark at still ⊢
  dsimp only at still ⊢
  split at still
  · rename_i same
    rw [if_pos same]
  · simp at still

theorem moved_of_mark (still : (p.mark node isLabel).moved = false) : p.moved = false := by
  unfold mark at still
  dsimp only at still
  split at still
  · exact still
  · exact (Bool.or_eq_false_iff.mp still).1

theorem mark_settled : (p.mark node isLabel).settled = p.settled := by
  unfold mark
  dsimp only
  split <;> rfl

theorem widenCondition_settled (inverted : Opcode) (target : Label) (distance : Int) :
    (p.widenCondition node inverted target distance).settled = false := by
  simp [widenCondition, write, mark_settled]

theorem sized_widenCondition (sized : p.Sized) (inverted : Opcode) (target : Label)
    (distance : Int) : (p.widenCondition node inverted target distance).Sized := by
  have nodes : (p.widenCondition node inverted target distance).draft.nodes.size =
      p.draft.nodes.size + 2 := by
    rw [widenCondition_draft]
    simp [setInstruction, markPlaced, allocate, createLabel]
  unfold Sized
  rw [nodes, ← sized]
  simp [Pass.widenCondition, write, size_mark]

/-- Whatever comes of a step, new nodes get cells for their offsets. -/
theorem sized_step {result : Except Fault Unit} (sized : p.Sized)
    (h : p.step pool node = (result, p')) : p'.Sized := by
  have marked : ∀ isLabel, (p.mark node isLabel).Sized := by
    intro isLabel
    rw [Sized, size_mark, mark_draft]
    exact sized
  unfold step at h
  dsimp only at h
  split at h
  · cases h
    exact marked _
  · cases h
    exact marked _
  · unfold widen at h
    split at h
    · cases h
      rw [Sized, widenJump, write]
      exact (marked _).trans (size_setInstruction _ _ _).symm
    · split at h
      · cases h
        exact sized_widenCondition (marked _) _ _ _
      · cases h
        exact marked _

/-- What writing a node does if no label moves and every target is known. -/
structure Quiet (pool : Pool) (p : Pass) (node : NodeId) (p' : Pass) : Prop where
  settled : p.settled = true
  still : p.moved = false
  order : p'.order = p.order.push node
  locals : p'.draft.locals = p.draft.locals
  labels : ∀ n, p.draft.IsLabelNode n → p'.draft.IsLabelNode n
  bytes : ∃ code : Bytes, p'.code = p.code ++ code ∧ p'.draft.encode pool p'.offsets p.code.size
    (p'.draft.instructionAt node) = .ok (.bytes code true)
  here : p'.offsets.of? node = some p.code.size
  offsets : ∀ n, n ≠ node ∨ p.draft.IsLabelNode n → p'.offsets.of? n = p.offsets.of? n
  instructions : ∀ n ≠ node, p'.draft.instructionAt n = p.draft.instructionAt n

theorem quiet_write {code : Bytes} {known : Bool} (inside : node < p.offsets.size)
    (encoded : p.draft.encode pool (p.mark node (p.draft.instructionAt node).isLabel).offsets
      p.code.size (p.draft.instructionAt node) = .ok (.bytes code known))
    (settled : (p.settled && known) = true)
    (still : (p.mark node (p.draft.instructionAt node).isLabel).moved = false) :
    Quiet pool p node
      ((p.mark node (p.draft.instructionAt node).isLabel).write node code known) := by
  obtain ⟨before, rfl⟩ := Bool.and_eq_true_iff.mp settled
  have unmoved : ∀ n, p.draft.IsLabelNode n →
      (p.mark node (p.draft.instructionAt node).isLabel).offsets.of? n = p.offsets.of? n := by
    rintro n ⟨placed, label⟩
    by_cases same : n = node
    · subst same
      rw [instructionAt_of_getElem? label] at still ⊢
      exact of?_mark_label still n
    · exact of?_mark_ne same
  refine ⟨before, moved_of_mark still, ?_, ?_, ?_, ⟨code, ?_, ?_⟩, of?_mark inside, ?_, ?_⟩
  · rw [write, mark_order]
  · rw [write, mark_draft]
  · rw [write, mark_draft]
    exact fun _ label => label
  · rw [write, mark_code]
  · rw [write, mark_draft]
    exact encoded
  · rintro n (other | label)
    · exact of?_mark_ne other
    · exact unmoved n label
  · rw [write, mark_draft]
    exact fun _ _ => rfl

theorem quiet_widenJump {op far : Opcode} {target : Label} {there : Nat}
    (inside : node < p.draft.nodes.size) (sized : p.Sized)
    (found : p.draft.instructionAt node = .branch op target) (form : op.farForm? = some far)
    (known : (p.mark node isLabel).offsets.of? target.node = some there)
    (settled : p.settled = true) (still : (p.mark node isLabel).moved = false) :
    Quiet pool p node
      ((p.mark node isLabel).widenJump node far target ((there : Int) - p.code.size)) := by
  have notLabel := not_isLabelNode_of_branch found
  refine ⟨settled, moved_of_mark still, ?_, ?_, ?_,
    ⟨far :: be32OfInt ((there : Int) - p.code.size), ?_, ?_⟩, of?_mark (sized.symm ▸ inside),
    ?_, ?_⟩
  · rw [widenJump, write, mark_order]
  · rw [widenJump, write, mark_draft]
    rfl
  · rw [widenJump, write, mark_draft]
    exact (keeps_setInstruction notLabel _).labels
  · rw [widenJump, write, mark_code]
  · rw [widenJump, write, mark_draft]
    dsimp only
    rw [instructionAt_setInstruction _ _ inside, encode, Encoding.branch, known]
    simp only [Opcode.isFar_of_farForm? form, if_true]
    rfl
  · rintro n (other | label)
    · exact of?_mark_ne other
    · exact of?_mark_ne fun same => notLabel (same ▸ label)
  · rw [widenJump, write, mark_draft]
    exact fun n other => instructionAt_setInstruction_ne _ _ other

/-- Where no label moves and every target is known, a step writes the bytes of its node. -/
theorem step_quiet (inside : node < p.draft.nodes.size) (sized : p.Sized)
    (h : p.step pool node = (.ok (), p')) (settled : p'.settled = true)
    (still : p'.moved = false) : Quiet pool p node p' := by
  unfold step at h
  dsimp only at h
  rw [mark_draft, mark_code] at h
  split at h
  · cases h
  · rename_i code known encoded
    cases h
    rw [write, mark_settled] at settled
    exact quiet_write (sized.symm ▸ inside) encoded settled still
  · rename_i op target distance far
    obtain ⟨found, there, known, rfl⟩ := encode_tooFar far
    unfold widen at h
    split at h
    · rename_i wide form
      cases h
      rw [widenJump, write, mark_settled, Bool.and_true] at settled
      exact quiet_widenJump inside sized found form known settled still
    · split at h
      · cases h
        rw [widenCondition_settled] at settled
        cases settled
      · cases h

/-- The rest of a pass in which no label moves and every target is known. -/
structure Finished (pool : Pool) (p : Pass) (rest : List NodeId) (p' : Pass) (bytes : Bytes) :
    Prop where
  settled : p.settled = true
  still : p.moved = false
  order : p'.order.toList = p.order.toList ++ rest
  code : p'.code.toList = p.code.toList ++ bytes
  locals : p'.draft.locals = p.draft.locals
  written : Written p'.draft pool p'.offsets p.code.size rest bytes
  offsets : ∀ n, n ∉ rest ∨ p.draft.IsLabelNode n → p'.offsets.of? n = p.offsets.of? n
  instructions : ∀ n, n ∉ rest → p'.draft.instructionAt n = p.draft.instructionAt n

theorem Finished.cons {q : Pass} {code : Bytes} (valid : (q.whole rest).Valid)
    (fresh : node ∉ rest) (quiet : Quiet pool p node q) (done : Finished pool q rest p' code) :
    ∃ first, Finished pool p (node :: rest) p' (first ++ code) := by
  obtain ⟨first, appended, encoded⟩ := quiet.bytes
  have size : q.code.size = p.code.size + first.length := by
    rw [appended, ← Array.length_toList, Array.toList_appendList, List.length_append,
      Array.length_toList]
  have final : p'.draft.encode pool p'.offsets p.code.size (p'.draft.instructionAt node) =
      .ok (.bytes first true) := by
    rw [done.instructions node fresh, ← encoded]
    apply encode_congr done.locals
    intro label member
    exact done.offsets _ (.inr ((valid.owns node).targets label member).2)
  refine ⟨first, quiet.settled, quiet.still, ?_, ?_, done.locals.trans quiet.locals, ?_, ?_, ?_⟩
  · rw [done.order, quiet.order, Array.toList_push, List.append_assoc, List.singleton_append]
  · rw [done.code, appended, Array.toList_appendList, List.append_assoc]
  · exact .cons ((done.offsets node (.inl fresh)).trans quiet.here) final (size ▸ done.written)
  · rintro n (absent | label)
    · rw [List.mem_cons, not_or] at absent
      exact (done.offsets n (.inl absent.2)).trans (quiet.offsets n (.inl absent.1))
    · exact (done.offsets n (.inr (quiet.labels n label))).trans (quiet.offsets n (.inr label))
  · intro n absent
    rw [List.mem_cons, not_or] at absent
    exact (done.instructions n absent.2).trans (quiet.instructions n absent.1)

theorem run_finished (valid : (p.whole rest).Valid) (sized : p.Sized)
    (h : run pool rest p = (.ok (), p')) (settled : p'.settled = true)
    (still : p'.moved = false) : ∃ code, Finished pool p rest p' code := by
  induction rest generalizing p with
  | nil =>
      cases h
      exact ⟨[], settled, still, by simp, by simp, rfl, .nil _, fun _ _ => rfl, fun _ _ => rfl⟩
  | cons node rest ih =>
      unfold run at h
      split at h
      · rename_i q stepped
        have later := valid_widened valid (step_widens valid stepped)
        obtain ⟨code, done⟩ := ih later (sized_step sized stepped) h
        have member : node ∈ (p.whole (node :: rest)).order.toList := by
          rw [order_whole]
          simp
        have fresh : node ∉ rest := by
          have nodup := valid.nodup
          rw [order_whole] at nodup
          exact (List.nodup_cons.mp (List.nodup_append.mp nodup).2.1).1
        obtain ⟨first, all⟩ := Finished.cons later fresh
          (step_quiet (valid.inside member) sized stepped done.settled done.still) done
        exact ⟨_, all⟩
      · cases h

theorem sized_run {result : Except Fault Unit} (sized : p.Sized)
    (h : run pool rest p = (result, p')) : p'.Sized := by
  induction rest generalizing p with
  | nil =>
      cases h
      exact sized
  | cons node rest ih =>
      unfold run at h
      split at h
      · rename_i q stepped
        exact ih (sized_step sized stepped) h
      · rename_i fault q stepped
        cases h
        have same : q.Sized := sized_step sized stepped
        exact same

end Layout.Pass

namespace Layout

open Draft Pass

variable {pool : Pool} {d d' : Draft} {offsets : Offsets} {p : Pass}

theorem sized_pass {result : Except Fault Unit} (sized : offsets.size = d.nodes.size)
    (h : pass pool d offsets = (result, p)) : p.offsets.size = p.draft.nodes.size := by
  obtain ⟨q, ran, rfl⟩ := pass_eq h
  have start : Pass.Sized ⟨{ d with order := #[] }, #[], offsets, #[], false, true⟩ := sized
  have done : q.Sized := sized_run start ran
  exact done

theorem pass_written (valid : d.Valid) (sized : offsets.size = d.nodes.size)
    (h : pass pool d offsets = (.ok (), p)) (settled : p.settled = true)
    (still : p.moved = false) :
    Written p.draft pool p.offsets 0 p.draft.order.toList p.code.toList := by
  obtain ⟨q, ran, rfl⟩ := pass_eq h
  have start : Pass.Sized ⟨{ d with order := #[] }, #[], offsets, #[], false, true⟩ := sized
  obtain ⟨code, done⟩ := run_finished ((whole_start d offsets).symm ▸ valid) start ran settled still
  have order : q.order.toList = d.order.toList := done.order
  have bytes : q.code.toList = code := done.code
  dsimp only
  rw [order, bytes]
  exact written_reorder done.written

/-- Passes up to the first one that moves no label and knows every target, however many. -/
inductive Settles (pool : Pool) : Offsets → Draft → Layout → Draft → Prop
  | last {offsets : Offsets} {d : Draft} {p : Pass} (passed : pass pool d offsets = (.ok (), p))
      (short : p.code.size ≤ 65535) (still : p.moved = false) (settled : p.settled = true) :
      Settles pool offsets d ⟨p.code.toList, p.offsets⟩ p.draft
  | more {offsets : Offsets} {d d' : Draft} {p : Pass} {l : Layout}
      (passed : pass pool d offsets = (.ok (), p))
      (later : Settles pool p.offsets p.draft l d') : Settles pool offsets d l d'

theorem settles_of_settle {budget : Nat} {l : Layout}
    (h : settle pool budget offsets d = (.ok l, d')) : Settles pool offsets d l d' := by
  induction budget generalizing offsets d with
  | zero => cases h
  | succ budget ih =>
      unfold settle at h
      split at h
      · cases h
      · rename_i p passed
        split at h
        · cases h
        · rename_i short
          split at h
          · rename_i last
            rw [Bool.and_eq_true, Bool.not_eq_true'] at last
            cases h
            exact .last passed (Nat.le_of_not_lt short) last.1 last.2
          · exact .more passed (ih h)

theorem Settles.written {l : Layout} (settles : Settles pool offsets d l d') (valid : d.Valid)
    (sized : offsets.size = d.nodes.size) :
    Written d' pool l.offsets 0 d'.order.toList l.code ∧ l.code.length ≤ 65535 := by
  induction settles with
  | last passed short still settled =>
      exact ⟨pass_written valid sized passed settled still, by simpa using short⟩
  | more passed _ ih =>
      exact ih (valid_widened valid (pass_widens valid passed)) (sized_pass sized passed)

/-- The code of a layout is the bytes of its nodes, each at the offset recorded for it. -/
theorem layout_written {l : Layout} (valid : d.Valid) (h : d.layout pool = (.ok l, d')) :
    Written d' pool l.offsets 0 d'.order.toList l.code ∧ l.code.length ≤ 65535 :=
  (settles_of_settle h).written valid (by simp)

end Layout

end JvmAssembly
