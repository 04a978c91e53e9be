import Mathlib
import JvmAssembly.Proofs.Draft.ControlFlow

/-!
How far the code of a pass reaches. The bytes of an instruction end no earlier if they begin no
earlier: padding shrinks by no more than the code before it has grown, and every other length is
independent of the place. So a pass over nodes that have offsets puts none of them further to the
front, and widening only adds to that.
-/
namespace JvmAssembly

namespace Encoding

variable {offsets : Offsets} {offset : Nat}

theorem length_be32OfInt (n : Int) : (be32OfInt n).length = 4 := rfl

theorem length_jump (label : Label) : (jump offsets offset label).length = 4 := by
  unfold jump
  split <;> exact length_be32OfInt _

theorem length_branch {op : Opcode} {target : Label} {code : Bytes} {known : Bool}
    (h : branch offsets offset op target = .bytes code known) :
    code.length = if op.isFar then 5 else 3 := by
  unfold branch at h
  split at h
  · cases h
    split <;> simp
  · dsimp only at h
    split at h
    · rename_i far
      cases h
      rw [if_pos far]
      rfl
    · rename_i near
      split at h
      · cases h
        rw [if_neg near]
        rfl
      · cases h

/-- Bytes of a switch after the padding. -/
def switchWidth (default : Label) (cases : List (Int32 × Label)) (table : Bool) : Nat :=
  match table, cases.head?, cases.getLast? with
  | true, some (low, _), some (high, _) =>
    12 + 4 * (tableLabels default #[] (high.toInt - low.toInt + 1).toNat low.toInt cases).length
  | _, _, _ => 8 + 8 * cases.length

/-- A switch ends a fixed number of bytes behind the next multiple of four. -/
theorem length_switch {default : Label} {cases : List (Int32 × Label)} {table : Bool}
    {code : Bytes} {known : Bool}
    (h : switch offsets offset default cases table = .bytes code known) :
    offset + code.length = 4 * (offset / 4) + 4 + switchWidth default cases table := by
  have jumps : ∀ labels : List Label,
      (labels.flatMap (jump offsets offset)).length = 4 * labels.length := by
    intro labels
    simp [List.length_flatMap, length_jump, Nat.mul_comm]
  have word : ∀ w, (be32 w).length = 4 := fun _ => rfl
  have rows : (cases.flatMap fun c => be32 c.1.toUInt32 ++ jump offsets offset c.2).length =
      8 * cases.length := by
    simp [List.length_flatMap, length_jump, word, Nat.mul_comm]
  have listed : offset + (switchList offsets offset default cases).length =
      4 * (offset / 4) + 4 + (8 + 8 * cases.length) := by
    simp only [switchList, padding, List.length_cons, List.length_append, List.length_replicate,
      length_jump, word, rows]
    omega
  unfold switch at h
  unfold switchWidth
  dsimp only at h
  cases table with
  | false =>
      cases h
      exact listed
  | true =>
      cases first : cases.head? with
      | none =>
          rw [first] at h
          cases h
          exact listed
      | some low =>
          cases last : cases.getLast? with
          | none =>
              rw [first, last] at h
              cases h
              exact listed
          | some high =>
              rw [first, last] at h
              cases h
              simp only [switchTable, padding, List.length_cons, List.length_append,
                List.length_replicate, length_jump, word, jumps]
              omega

theorem length_tableLabels (default : Label) (done : Array Label) (n : Nat) (key : Int)
    (cases : List (Int32 × Label)) :
    (tableLabels default done n key cases).length = done.size + n := by
  fun_induction tableLabels default done n key cases with
  | case1 => simp
  | case2 done n key ih => rw [ih, Array.size_push]; omega
  | case3 done n c cs ih => rw [ih, Array.size_push]; omega
  | case4 done n key c cs other ih => rw [ih, Array.size_push]; omega

theorem switchWidth_list (default : Label) (cases : List (Int32 × Label)) :
    switchWidth default cases false = 8 + 8 * cases.length := rfl

theorem switchWidth_table {default a b : Label} {cases : List (Int32 × Label)}
    {low high : Int32} (first : cases.head? = some (low, a))
    (last : cases.getLast? = some (high, b)) :
    switchWidth default cases true = 12 + 4 * (high.toInt - low.toInt + 1).toNat := by
  unfold switchWidth
  simp only [first, last]
  rw [length_tableLabels]
  rw [Array.size_empty, Nat.zero_add]

end Encoding

namespace Draft

/-- The bytes of an instruction may begin and end at these offsets. -/
def Spans (d : Draft) (pool : Pool) (x : Instruction) (start stop : Nat) : Prop :=
  ∃ (offsets : Offsets) (code : Bytes) (known : Bool),
    d.encode pool offsets start x = .ok (.bytes code known) ∧ stop = start + code.length

variable {d d' : Draft} {pool : Pool} {x : Instruction} {start stop : Nat}

theorem Spans.congr (locals : d.locals = d'.locals) (h : d.Spans pool x start stop) :
    d'.Spans pool x start stop := by
  obtain ⟨offsets, code, known, encoded, ends⟩ := h
  exact ⟨offsets, code, known, (encode_congr locals fun _ _ => rfl).symm.trans encoded, ends⟩

theorem Spans.le (h : d.Spans pool x start stop) : start ≤ stop := by
  obtain ⟨offsets, code, known, -, rfl⟩ := h
  exact Nat.le_add_right _ _

theorem Spans.branch {op : Opcode} {target : Label}
    (h : d.Spans pool (.branch op target) start stop) :
    stop = start + if op.isFar then 5 else 3 := by
  obtain ⟨offsets, code, known, encoded, rfl⟩ := h
  rw [Encoding.length_branch (Except.ok.inj encoded)]

/-- The bytes of all but jumps and switches are the same everywhere. -/
theorem encode_anywhere (jump : ∀ op target, x ≠ .branch op target)
    (switch : ∀ default cases table, x ≠ .switch default cases table)
    (offsets offsets' : Offsets) (offset offset' : Nat) :
    d.encode pool offsets offset x = d.encode pool offsets' offset' x := by
  cases x with
  | branch op target => exact absurd rfl (jump op target)
  | switch default cases table => exact absurd rfl (switch default cases table)
  | store target kind discard => cases discard <;> rfl
  | _ => rfl

/-- What begins no earlier ends no earlier. -/
theorem Spans.mono {start' stop' : Nat} (h : d.Spans pool x start stop)
    (h' : d.Spans pool x start' stop') (le : start ≤ start') : stop ≤ stop' := by
  cases x with
  | branch op target =>
      rw [h.branch, h'.branch]
      omega
  | switch default cases table =>
      obtain ⟨offsets, code, known, encoded, rfl⟩ := h
      obtain ⟨offsets', code', known', encoded', rfl⟩ := h'
      rw [Encoding.length_switch (Except.ok.inj encoded),
        Encoding.length_switch (Except.ok.inj encoded')]
      omega
  | _ =>
      obtain ⟨offsets, code, known, encoded, rfl⟩ := h
      obtain ⟨offsets', code', known', encoded', rfl⟩ := h'
      rw [encode_anywhere (by simp) (by simp) offsets offsets' start start', encoded'] at encoded
      cases encoded
      omega

/-- A jump that is too far may be written with zeros until its target is known. -/
theorem spans_near {op : Opcode} (target : Label) (near : op.isFar = false) (start : Nat) :
    d.Spans pool (.branch op target) start (start + 3) := by
  refine ⟨#[], op :: List.replicate 2 0, false, ?_, rfl⟩
  rw [encode, Encoding.branch]
  simp [Offsets.of?, near]

theorem spans_far {op : Opcode} (target : Label) (far : op.isFar = true) (start : Nat) :
    d.Spans pool (.branch op target) start (start + 5) := by
  refine ⟨#[], op :: List.replicate 4 0, false, ?_, rfl⟩
  rw [encode, Encoding.branch]
  simp [Offsets.of?, far]

/-- Nodes in order at their offsets, with room for the instruction of each. -/
inductive Laid (d : Draft) (pool : Pool) (offsets : Offsets) : Nat → List NodeId → Nat → Prop
  | nil (offset : Nat) : Laid d pool offsets offset [] offset
  | cons {start mid stop : Nat} {node : NodeId} {rest : List NodeId}
      (here : offsets.of? node = some start)
      (span : d.Spans pool (d.instructionAt node) start mid)
      (later : Laid d pool offsets mid rest stop) :
      Laid d pool offsets start (node :: rest) stop

namespace Laid

variable {offsets offsets' : Offsets} {nodes more : List NodeId}

theorem congr (h : Laid d pool offsets start nodes stop) (locals : d.locals = d'.locals)
    (instructions : ∀ n ∈ nodes, d'.instructionAt n = d.instructionAt n)
    (same : ∀ n ∈ nodes, offsets'.of? n = offsets.of? n) :
    Laid d' pool offsets' start nodes stop := by
  induction h with
  | nil offset => exact .nil offset
  | @cons start mid stop node rest here span later ih =>
      rw [List.forall_mem_cons] at instructions same
      refine .cons (same.1.trans here) ?_ (ih instructions.2 same.2)
      rw [instructions.1]
      exact span.congr locals

theorem uncons {node : NodeId} (h : Laid d pool offsets start (node :: nodes) stop) :
    ∃ mid, offsets.of? node = some start ∧ d.Spans pool (d.instructionAt node) start mid ∧
      Laid d pool offsets mid nodes stop := by
  cases h with
  | cons here span later => exact ⟨_, here, span, later⟩

theorem append {mid : Nat} (h : Laid d pool offsets start nodes mid)
    (h' : Laid d pool offsets mid more stop) : Laid d pool offsets start (nodes ++ more) stop := by
  induction h with
  | nil offset => exact h'
  | cons here span _ ih => exact .cons here span (ih h')

theorem le (h : Laid d pool offsets start nodes stop) : start ≤ stop := by
  induction h with
  | nil offset => exact Nat.le_refl _
  | cons here span _ ih => exact Nat.le_trans span.le ih

theorem known (h : Laid d pool offsets start nodes stop) {n : NodeId} (member : n ∈ nodes) :
    ∃ offset, offsets.of? n = some offset ∧ offset ≤ stop := by
  induction h with
  | nil offset => cases member
  | cons here span later ih =>
      rcases List.mem_cons.mp member with rfl | behind
      · exact ⟨_, here, Nat.le_trans span.le later.le⟩
      · exact ih behind

end Laid

end Draft

/-- With every target known the bytes are settled. -/
theorem Draft.known_of_targets {d : Draft} {pool : Pool} {offsets : Offsets} {offset : Nat}
    {x : Instruction} {code : Bytes} {known : Bool}
    (h : d.encode pool offsets offset x = .ok (.bytes code known))
    (targets : ∀ label ∈ x.targets, (offsets.of? label.node).isSome = true) : known = true := by
  cases x with
  | branch op target =>
      have there := targets target (List.mem_singleton.mpr rfl)
      obtain ⟨place, found⟩ := Option.isSome_iff_exists.mp there
      rw [encode, Encoding.branch, found, Except.ok.injEq] at h
      dsimp only at h
      split at h
      · cases h
        rfl
      · split at h <;> cases h
        rfl
  | switch default cases table =>
      have atDefault := targets default (by simp [Instruction.targets])
      have atCases : (cases.all fun c => (offsets.of? c.2.node).isSome) = true := by
        rw [List.all_eq_true]
        intro c member
        exact targets c.2 (List.mem_append_left _ (List.mem_map_of_mem member))
      simp only [encode, Encoding.switch, Except.ok.injEq, atDefault, atCases] at h
      split at h <;> cases h <;> rfl
  | label => cases h; rfl
  | simple op => cases h; rfl
  | immediate op n =>
      simp only [encode] at h
      split at h <;> cases h <;> rfl
  | store v kind discard =>
      cases discard with
      | true => cases h; rfl
      | false =>
          obtain ⟨slot, -, h⟩ := bind_eq_ok.mp h
          cases h
          rfl
  | _ =>
      obtain ⟨index, -, h⟩ := bind_eq_ok.mp h
      cases h
      rfl

theorem Offsets.of?_push_none (offsets : Offsets) (n : Nat) :
    of? (offsets.push none) n = offsets.of? n := by
  unfold of?
  by_cases last : n = offsets.size
  · rw [last, Array.getElem?_push_size, Array.getElem?_eq_none (Nat.le_refl _)]
  · rw [Array.getElem?_push, if_neg last]

theorem Offsets.of?_of_size_le {offsets : Offsets} {n : Nat} (past : offsets.size ≤ n) :
    offsets.of? n = none := by
  unfold of?
  rw [Array.getElem?_eq_none past]

theorem Offsets.of?_replicate_none (size n : Nat) : of? (Array.replicate size none) n = none := by
  unfold of?
  rw [Array.getElem?_replicate]
  by_cases inside : n < size
  · rw [if_pos inside]
  · rw [if_neg inside]

namespace Layout.Pass

open Draft

variable {pool : Pool} {p p' q : Pass} {node : Nat} {rest new : List NodeId}

theorem mark_of_known {isLabel : Bool} (here : p.offsets.of? node = some p.code.size) :
    p.mark node isLabel = p := by
  unfold mark
  exact if_pos here

/-- The three ways to write a node. -/
inductive Step (pool : Pool) (p : Pass) (node : NodeId) : Pass → Prop
  | write {code : Bytes} {known : Bool}
      (encoded : p.draft.encode pool (p.mark node (p.draft.instructionAt node).isLabel).offsets
        p.code.size (p.draft.instructionAt node) = .ok (.bytes code known)) :
      Step pool p node
        ((p.mark node (p.draft.instructionAt node).isLabel).write node code known)
  | jump {op far : Opcode} {target : Label} {distance : Int}
      (found : p.draft.instructionAt node = .branch op target) (form : op.farForm? = some far) :
      Step pool p node ((p.mark node false).widenJump node far target distance)
  | condition {op inverted : Opcode} {target : Label} {distance : Int}
      (found : p.draft.instructionAt node = .branch op target)
      (opposite : op.invert? = some inverted) :
      Step pool p node ((p.mark node false).widenCondition node inverted target distance)

theorem step_cases (h : p.step pool node = (.ok (), p')) : Step pool p node p' := by
  unfold step at h
  dsimp only at h
  rw [mark_draft, mark_code] at h
  split at h
  · cases h
  · rename_i code known encoded
    cases h
    exact .write encoded
  · rename_i op target distance far
    obtain ⟨found, -⟩ := encode_tooFar far
    rw [found] at h
    unfold widen at h
    split at h
    · rename_i wide form
      cases h
      exact .jump found form
    · split at h
      · rename_i inverted opposite
        cases h
        exact .condition found opposite
      · cases h

namespace widenCondition

variable {inverted : Opcode} {target : Label} {distance : Int}

/-- The new nodes are marked and written as any others, once they have cells for their offsets. -/
theorem eq_write : ∃ start : Pass, start.offsets = (p.offsets.push none).push none ∧
    start.code = p.code ++ [inverted, 0, 0] ∧
    p.widenCondition node inverted target distance =
      (((start.mark (p.draft.nodes.size + 1) false).write (p.draft.nodes.size + 1)
        (Opcode.goto_w :: be32OfInt (distance - 3)) true).mark p.draft.nodes.size true).write
          p.draft.nodes.size [] true := by
  unfold Pass.widenCondition
  dsimp only
  rw [size_createLabel]
  exact ⟨_, rfl, rfl, rfl⟩

theorem code_size :
    (p.widenCondition node inverted target distance).code.size = p.code.size + 8 := by
  obtain ⟨start, -, code, same⟩ := @eq_write p node inverted target distance
  have word : (be32OfInt (distance - 3)).length = 4 := Encoding.length_be32OfInt _
  rw [same]
  simp only [write, mark_code, code, ← Array.length_toList, Array.toList_appendList,
    List.length_append, List.length_cons, List.length_nil, word]

theorem instructionAt (valid : (p.whole (node :: rest)).Valid) (n : NodeId) :
    (p.widenCondition node inverted target distance).draft.instructionAt n =
      ((p.whole (node :: rest)).widenCondition node inverted target).instructionAt n := by
  rw [← whole_widenCondition valid]
  rfl

theorem offsets_jump (sized : p.Sized) :
    (p.widenCondition node inverted target distance).offsets.of? (p.draft.nodes.size + 1) =
      some (p.code.size + 3) := by
  obtain ⟨start, offsets, code, same⟩ := @eq_write p node inverted target distance
  have inside : p.draft.nodes.size + 1 < start.offsets.size := by
    rw [offsets, ← sized]
    simp
  rw [same, write, of?_mark_ne (Nat.ne_of_gt (Nat.lt_succ_self _)), write, of?_mark inside, code]
  simp [← Array.length_toList]

theorem offsets_hop (sized : p.Sized) :
    (p.widenCondition node inverted target distance).offsets.of? p.draft.nodes.size =
      some (p.code.size + 8) := by
  obtain ⟨start, offsets, code, same⟩ := @eq_write p node inverted target distance
  have inside : p.draft.nodes.size < start.offsets.size := by
    rw [offsets, ← sized]
    simp
  have last := @code_size p node inverted target distance
  rw [same] at last ⊢
  rw [write, mark_code] at last
  rw [write, of?_mark (by rw [write, size_mark]; exact inside)]
  simpa using last

theorem offsets_other {n : Nat} (jump : n ≠ p.draft.nodes.size + 1) (hop : n ≠ p.draft.nodes.size) :
    (p.widenCondition node inverted target distance).offsets.of? n = p.offsets.of? n := by
  obtain ⟨start, offsets, -, same⟩ := @eq_write p node inverted target distance
  rw [same, write, of?_mark_ne hop, write, of?_mark_ne jump, offsets, Offsets.of?_push_none,
    Offsets.of?_push_none]

end widenCondition

/-- What writing a node does: it puts the node, and `new` ones behind it, at the end of the code,
and leaves all others as they were. -/
structure Advances (pool : Pool) (p : Pass) (node : NodeId) (p' : Pass) (new : List NodeId) :
    Prop where
  order : p'.order.toList = p.order.toList ++ node :: new
  fresh : ∀ n ∈ new, p.draft.nodes.size ≤ n
  size : p.draft.nodes.size ≤ p'.draft.nodes.size
  locals : p'.draft.locals = p.draft.locals
  instructions : ∀ n < p.draft.nodes.size, n ≠ node →
    p'.draft.instructionAt n = p.draft.instructionAt n
  offsets : ∀ n ∉ node :: new, p'.offsets.of? n = p.offsets.of? n
  laid : p'.draft.Laid pool p'.offsets p.code.size (node :: new) p'.code.size
  reaches : ∀ start stop, p.draft.Spans pool (p.draft.instructionAt node) start stop →
    start ≤ p.code.size → stop ≤ p'.code.size
  still : (∀ n ∈ node :: new, p'.offsets.of? n = p.offsets.of? n) →
    (∀ label ∈ (p.draft.instructionAt node).targets, (p.offsets.of? label.node).isSome = true) →
    p'.moved = p.moved ∧ p'.settled = p.settled

theorem size_append (code : Array UInt8) (bytes : Bytes) :
    (code ++ bytes).size = code.size + bytes.length := by
  rw [← Array.length_toList, Array.toList_appendList, List.length_append, Array.length_toList]

theorem advances_write {code : Bytes} {known : Bool} (inside : node < p.offsets.size)
    (encoded : p.draft.encode pool (p.mark node (p.draft.instructionAt node).isLabel).offsets
      p.code.size (p.draft.instructionAt node) = .ok (.bytes code known)) :
    Advances pool p node
      ((p.mark node (p.draft.instructionAt node).isLabel).write node code known) [] := by
  have span : p.draft.Spans pool (p.draft.instructionAt node) p.code.size
      (p.code.size + code.length) := ⟨_, _, _, encoded, rfl⟩
  have here := @of?_mark p node (p.draft.instructionAt node).isLabel inside
  refine ⟨?_, ?_, ?_, ?_, ?_, ?_, ?_, ?_, ?_⟩
  · simp [write, mark_order]
  · intro n none
    cases none
  · rw [write, mark_draft]
  · rw [write, mark_draft]
  · rw [write, mark_draft]
    exact fun _ _ _ => rfl
  · intro n other
    exact of?_mark_ne fun same => other (List.mem_singleton.mpr same)
  · rw [write, mark_draft, mark_code, size_append]
    exact .cons here span (.nil _)
  · intro start stop before le
    rw [write, mark_code, size_append]
    exact before.mono span le
  · intro same targets
    have known' : p.offsets.of? node = some p.code.size :=
      (same node (List.mem_cons_self ..)).symm.trans here
    rw [mark_of_known known'] at encoded ⊢
    exact ⟨rfl, by simp [write, known_of_targets encoded targets]⟩

theorem advances_widenJump {op far : Opcode} {target : Label} {distance : Int}
    (inside : node < p.draft.nodes.size) (sized : p.Sized)
    (found : p.draft.instructionAt node = .branch op target) (form : op.farForm? = some far) :
    Advances pool p node ((p.mark node false).widenJump node far target distance) [] := by
  have here := @of?_mark p node false (sized.symm ▸ inside)
  have atNode := instructionAt_setInstruction p.draft (.branch far target) inside
  have size : (p.code ++ far :: be32OfInt distance).size = p.code.size + 5 := size_append _ _
  refine ⟨?_, ?_, ?_, ?_, ?_, ?_, ?_, ?_, ?_⟩
  · simp [widenJump, write, mark_order]
  · intro n none
    cases none
  · rw [widenJump, write, mark_draft]
    exact (size_setInstruction ..).ge
  · rw [widenJump, write, mark_draft]
    rfl
  · intro n bound other
    rw [widenJump, write, mark_draft]
    exact instructionAt_setInstruction_ne _ _ other
  · intro n other
    exact of?_mark_ne fun same => other (List.mem_singleton.mpr same)
  · rw [widenJump, write, mark_draft, mark_code, size]
    refine .cons here ?_ (.nil _)
    rw [atNode]
    exact spans_far target (Opcode.isFar_of_farForm? form) _
  · intro start stop before le
    rw [found] at before
    rw [before.branch, Opcode.isFar_of_widened (.inl form), widenJump, write, mark_code, size]
    simp only [Bool.false_eq_true, if_false]
    omega
  · intro same targets
    rw [mark_of_known ((same node (List.mem_cons_self ..)).symm.trans here)]
    exact ⟨rfl, Bool.and_true _⟩

theorem advances_widenCondition {op inverted : Opcode} {target : Label} {distance : Int}
    (valid : (p.whole (node :: rest)).Valid) (sized : p.Sized)
    (found : p.draft.instructionAt node = .branch op target)
    (opposite : op.invert? = some inverted) :
    Advances pool p node ((p.mark node false).widenCondition node inverted target distance)
      [p.draft.nodes.size + 1, p.draft.nodes.size] := by
  have inside : node < p.draft.nodes.size :=
    valid.inside (by rw [order_whole]; simp)
  have marked : (p.mark node false).Sized := by
    rw [Sized, size_mark, mark_draft]
    exact sized
  have valid' : ((p.mark node false).whole (node :: rest)).Valid := by
    rw [whole, mark_draft, mark_order]
    exact valid
  have draft := mark_draft p node false
  have code := mark_code p node false
  have here := @of?_mark p node false (sized.symm ▸ inside)
  have instructions := @widenCondition.instructionAt (p.mark node false) node rest inverted target
    distance valid'
  have jump := @widenCondition.offsets_jump (p.mark node false) node inverted target distance marked
  have hop := @widenCondition.offsets_hop (p.mark node false) node inverted target distance marked
  have others := @widenCondition.offsets_other (p.mark node false) node inverted target distance
  have size := @widenCondition.code_size (p.mark node false) node inverted target distance
  rw [draft] at jump hop
  rw [code] at jump hop size
  simp only [draft] at others
  have nodes : ((p.mark node false).whole (node :: rest)).nodes.size = p.draft.nodes.size := by
    rw [← draft]
    rfl
  have near : inverted.isFar = false :=
    Opcode.isFar_of_widened (.inr (Opcode.invert?_invert? opposite))
  refine ⟨?_, ?_, ?_, ?_, ?_, ?_, ?_, ?_, ?_⟩
  · rw [widenCondition_order, mark_order, draft]
    simp
  · intro n member
    rcases List.mem_pair.mp member with rfl | rfl
    · exact Nat.le_succ _
    · exact Nat.le_refl _
  · have grown := congrArg (fun d => d.nodes.size)
      (@whole_widenCondition _ _ _ inverted target distance valid')
    rw [widenCondition.size, nodes] at grown
    exact Nat.le_of_add_right_le grown.ge
  · rw [widenCondition_draft, draft]
    rfl
  · intro n bound other
    rw [instructions, widenCondition.atOther (nodes.symm ▸ bound) other, whole, draft]
    rfl
  · intro n absent
    simp only [List.mem_cons, List.not_mem_nil, or_false, not_or] at absent
    rw [others absent.2.1 absent.2.2, of?_mark_ne absent.1]
  · rw [size]
    refine .cons ?_ ?_ (.cons jump ?_ (.cons hop ?_ (.nil _)))
    · rw [others (by omega) (by omega)]
      exact here
    · rw [instructions, widenCondition.atNode (nodes.symm ▸ inside)]
      exact spans_near _ near _
    · have atJump := @widenCondition.atJump _ _ inverted target (nodes.symm ▸ inside)
      rw [nodes] at atJump
      rw [instructions, atJump]
      exact spans_far target rfl _
    · have atHop := @widenCondition.atHop _ _ inverted target (nodes.symm ▸ inside)
      rw [nodes] at atHop
      rw [instructions, atHop]
      exact ⟨#[], [], true, rfl, rfl⟩
  · intro start stop before le
    rw [found] at before
    rw [before.branch, Opcode.isFar_of_widened (.inr opposite), size]
    simp only [Bool.false_eq_true, if_false]
    omega
  · intro same
    -- The label behind the far jump had no offset, so it moves.
    have before : p.offsets.of? p.draft.nodes.size = none :=
      Offsets.of?_of_size_le (Nat.le_of_eq sized)
    rw [← same p.draft.nodes.size (by simp), hop] at before
    cases before

theorem step_advances (valid : (p.whole (node :: rest)).Valid) (sized : p.Sized)
    (h : p.step pool node = (.ok (), p')) : ∃ new, Advances pool p node p' new := by
  have inside : node < p.draft.nodes.size :=
    valid.inside (by rw [order_whole]; simp)
  cases step_cases h with
  | write encoded => exact ⟨_, advances_write (sized.symm ▸ inside) encoded⟩
  | jump found form => exact ⟨_, advances_widenJump inside sized found form⟩
  | condition found opposite => exact ⟨_, advances_widenCondition valid sized found opposite⟩

theorem inside_of_whole (valid : (p.whole rest).Valid) {n : Nat} (member : n ∈ rest) :
    n < p.draft.nodes.size := by
  refine valid.inside ?_
  rw [order_whole]
  exact List.mem_append_right _ member

theorem not_mem_of_whole (valid : (p.whole (node :: rest)).Valid) : node ∉ rest := by
  have nodup := valid.nodup
  rw [order_whole] at nodup
  exact (List.nodup_cons.mp (List.nodup_append.mp nodup).2.1).1

/-- What a step writes is not among the nodes still to come. -/
theorem Advances.apart (valid : (p.whole (node :: rest)).Valid)
    (first : Advances pool p node q new) : ∀ n ∈ node :: new, n ∉ rest := by
  intro n member behind
  rcases List.mem_cons.mp member with rfl | added
  · exact not_mem_of_whole valid behind
  · exact Nat.not_lt.mpr (first.fresh n added)
      (inside_of_whole valid (List.mem_cons_of_mem _ behind))

theorem Advances.instructions_rest (valid : (p.whole (node :: rest)).Valid)
    (first : Advances pool p node q new) {n : NodeId} (member : n ∈ rest) :
    q.draft.instructionAt n = p.draft.instructionAt n := by
  apply first.instructions n (inside_of_whole valid (List.mem_cons_of_mem _ member))
  rintro rfl
  exact not_mem_of_whole valid member

/-- What a run does: the rest of the nodes is written, and new ones between them. -/
structure Ran (pool : Pool) (p : Pass) (rest : List NodeId) (p' : Pass) (nodes : List NodeId) :
    Prop where
  order : p'.order.toList = p.order.toList ++ nodes
  fresh : ∀ n ∈ nodes, n ∈ rest ∨ p.draft.nodes.size ≤ n
  written : ∀ n ∈ rest, n ∈ nodes
  locals : p'.draft.locals = p.draft.locals
  instructions : ∀ n < p.draft.nodes.size, n ∉ rest →
    p'.draft.instructionAt n = p.draft.instructionAt n
  offsets : ∀ n ∉ nodes, p'.offsets.of? n = p.offsets.of? n
  laid : p'.draft.Laid pool p'.offsets p.code.size nodes p'.code.size
  still : (∀ n ∈ nodes, p'.offsets.of? n = p.offsets.of? n) →
    (∀ n ∈ rest, ∀ label ∈ (p.draft.instructionAt n).targets,
      (p.offsets.of? label.node).isSome = true) →
    p'.moved = p.moved ∧ p'.settled = p.settled

theorem Ran.nil (p : Pass) : Ran pool p [] p [] where
  order := (List.append_nil _).symm
  fresh n none := by cases none
  written n none := none
  locals := rfl
  instructions _ _ _ := rfl
  offsets _ _ := rfl
  laid := .nil _
  still _ _ := ⟨rfl, rfl⟩

theorem Ran.cons {nodes : List NodeId} (valid : (p.whole (node :: rest)).Valid)
    (sized' : q.Sized) (first : Advances pool p node q new) (later : Ran pool q rest p' nodes) :
    Ran pool p (node :: rest) p' (node :: new ++ nodes) := by
  have bound : ∀ n ∈ node :: new, n < q.draft.nodes.size := by
    intro n member
    obtain ⟨offset, known, -⟩ := first.laid.known member
    by_contra past
    rw [Offsets.of?_of_size_le (by rw [sized']; exact Nat.le_of_not_lt past)] at known
    cases known
  have apart := first.apart valid
  have disjoint : ∀ n ∈ node :: new, n ∉ nodes := by
    intro n member behind
    rcases later.fresh n behind with old | past
    · exact apart n member old
    · exact Nat.not_lt.mpr past (bound n member)
  refine ⟨?_, ?_, ?_, later.locals.trans first.locals, ?_, ?_, ?_, ?_⟩
  · rw [later.order, first.order, List.append_assoc]
  · intro n member
    rcases List.mem_append.mp member with now | behind
    · rcases List.mem_cons.mp now with rfl | added
      · exact .inl (List.mem_cons_self ..)
      · exact .inr (first.fresh n added)
    · rcases later.fresh n behind with old | past
      · exact .inl (List.mem_cons_of_mem _ old)
      · exact .inr (Nat.le_trans first.size past)
  · intro n member
    rcases List.mem_cons.mp member with rfl | behind
    · exact List.mem_append_left _ (List.mem_cons_self ..)
    · exact List.mem_append_right _ (later.written n behind)
  · intro n old other
    rw [List.mem_cons, not_or] at other
    exact (later.instructions n (Nat.lt_of_lt_of_le old first.size) other.2).trans
      (first.instructions n old other.1)
  · intro n other
    rw [List.mem_append, not_or] at other
    exact (later.offsets n other.2).trans (first.offsets n other.1)
  · refine (first.laid.congr later.locals.symm ?_ ?_).append later.laid
    · intro n member
      exact later.instructions n (bound n member) (apart n member)
    · intro n member
      exact later.offsets n (disjoint n member)
  · intro same targets
    have unmoved : ∀ n, q.offsets.of? n = p.offsets.of? n := by
      intro n
      by_cases member : n ∈ node :: new
      · rw [← later.offsets n (disjoint n member)]
        exact same n (List.mem_append_left _ member)
      · exact first.offsets n member
    have flags := first.still (fun n _ => unmoved n) (targets node (List.mem_cons_self ..))
    have flags' := later.still ?_ ?_
    · exact ⟨flags'.1.trans flags.1, flags'.2.trans flags.2⟩
    · intro n member
      rw [unmoved]
      exact same n (List.mem_append_right _ member)
    · intro n member label
      rw [first.instructions_rest valid member, unmoved]
      exact targets n (List.mem_cons_of_mem _ member) label

theorem run_ran (valid : (p.whole rest).Valid) (sized : p.Sized)
    (h : run pool rest p = (.ok (), p')) : ∃ nodes, Ran pool p rest p' nodes := by
  induction rest generalizing p with
  | nil =>
      cases h
      exact ⟨[], .nil _⟩
  | cons node rest ih =>
      unfold run at h
      split at h
      · rename_i q stepped
        have sized' := sized_step sized stepped
        obtain ⟨new, first⟩ := step_advances valid sized stepped
        obtain ⟨nodes, later⟩ := ih (valid_widened valid (step_widens valid stepped)) sized' h
        exact ⟨_, .cons valid sized' first later⟩
      · cases h

theorem step_error_offsets {fault : Fault} (h : p.step pool node = (.error fault, p')) :
    ∃ isLabel, p'.offsets = (p.mark node isLabel).offsets := by
  unfold step at h
  dsimp only at h
  split at h
  · cases h
    exact ⟨_, rfl⟩
  · cases h
  · unfold widen at h
    split at h
    · cases h
    · split at h
      · cases h
      · cases h
        exact ⟨_, rfl⟩

/-- Over nodes that have offsets, none of them beyond the code written so far, a run takes no
offset back, and its code reaches as far as they did. -/
theorem run_forward {result : Except Fault Unit} {start stop : Nat}
    (valid : (p.whole rest).Valid) (sized : p.Sized)
    (laid : p.draft.Laid pool p.offsets start rest stop) (le : start ≤ p.code.size)
    (h : run pool rest p = (result, p')) :
    (∀ n < p.draft.nodes.size, ∀ offset, p.offsets.of? n = some offset →
      ∃ offset', p'.offsets.of? n = some offset' ∧ offset ≤ offset') ∧
      (result = .ok () → stop ≤ p'.code.size) := by
  induction rest generalizing p start with
  | nil =>
      cases h
      cases laid
      exact ⟨fun n _ offset known => ⟨offset, known, Nat.le_refl _⟩, fun _ => le⟩
  | cons node rest ih =>
      obtain ⟨mid, here, span, later⟩ := laid.uncons
      unfold run at h
      split at h
      · rename_i q stepped
        obtain ⟨new, first⟩ := step_advances valid sized stepped
        have laid' : q.draft.Laid pool q.offsets mid rest stop := by
          refine later.congr first.locals.symm (fun n => first.instructions_rest valid) ?_
          intro n member
          exact first.offsets n fun written => first.apart valid n written member
        obtain ⟨forward, reaches⟩ := ih (valid_widened valid (step_widens valid stepped))
          (sized_step sized stepped) laid' (first.reaches _ _ span le) h
        refine ⟨?_, reaches⟩
        intro n bound offset known
        have bound' := Nat.lt_of_lt_of_le bound first.size
        by_cases same : n = node
        · subst same
          obtain ⟨-, atNode, -⟩ := first.laid.uncons
          obtain ⟨offset', known', further⟩ := forward n bound' p.code.size atNode
          rw [here] at known
          cases known
          exact ⟨offset', known', Nat.le_trans le further⟩
        · refine forward n bound' offset ((first.offsets n ?_).trans known)
          intro written
          rcases List.mem_cons.mp written with now | added
          · exact same now
          · exact Nat.not_lt.mpr (first.fresh n added) bound
      · rename_i fault q stepped
        obtain ⟨isLabel, offsets⟩ := step_error_offsets stepped
        cases h
        refine ⟨?_, fun ok => by cases ok⟩
        intro n bound offset known
        dsimp only
        rw [offsets]
        by_cases same : n = node
        · subst same
          rw [here] at known
          cases known
          exact ⟨_, of?_mark (sized.symm ▸ bound), le⟩
        · exact ⟨offset, (of?_mark_ne same).trans known, Nat.le_refl _⟩

end Layout.Pass

namespace Layout

open Draft Pass

variable {pool : Pool} {d : Draft} {offsets : Offsets} {p : Pass}

/-- A draft whose targets are all placed, and offsets for none but its placed nodes. -/
structure Ready (d : Draft) (offsets : Offsets) : Prop where
  valid : d.Valid
  targets : ∀ n ∈ d.order.toList, ∀ label ∈ (d.instructionAt n).targets,
    label.node ∈ d.order.toList
  sized : offsets.size = d.nodes.size
  unplaced : ∀ n ∉ d.order.toList, offsets.of? n = none

theorem ready_start (valid : d.Valid)
    (targets : ∀ n ∈ d.order.toList, ∀ label ∈ (d.instructionAt n).targets,
      label.node ∈ d.order.toList) : Ready d (Array.replicate d.nodes.size none) where
  valid := valid
  targets := targets
  sized := Array.size_replicate
  unplaced n _ := Offsets.of?_replicate_none _ n

theorem pass_ran (valid : d.Valid) (sized : offsets.size = d.nodes.size)
    (h : pass pool d offsets = (.ok (), p)) :
    ∃ q, Ran pool ⟨{ d with order := #[] }, #[], offsets, #[], false, true⟩ d.order.toList q
        p.draft.order.toList ∧
      p = { q with draft := { q.draft with order := q.order }, order := #[] } := by
  obtain ⟨q, ran, rfl⟩ := pass_eq h
  have start : Pass.Sized ⟨{ d with order := #[] }, #[], offsets, #[], false, true⟩ := sized
  obtain ⟨nodes, all⟩ := run_ran ((whole_start d offsets).symm ▸ valid) start ran
  have order : q.order.toList = nodes := all.order
  exact ⟨q, order ▸ all, rfl⟩

/-- A pass gives offsets to placed nodes only. -/
theorem unplaced_pass (valid : d.Valid) (sized : offsets.size = d.nodes.size)
    (unplaced : ∀ n ∉ d.order.toList, offsets.of? n = none)
    (h : pass pool d offsets = (.ok (), p)) {n : NodeId} (absent : n ∉ p.draft.order.toList) :
    p.offsets.of? n = none := by
  obtain ⟨q, all, rfl⟩ := pass_ran valid sized h
  exact (all.offsets n absent).trans (unplaced n fun member => absent (all.written n member))

/-- After a pass every placed node has an offset, with room for all of them in the code. -/
theorem pass_ready (ready : Ready d offsets) (h : pass pool d offsets = (.ok (), p)) :
    Ready p.draft p.offsets ∧
      p.draft.Laid pool p.offsets 0 p.draft.order.toList p.code.size := by
  have widened := pass_widens ready.valid h
  refine ⟨⟨valid_widened ready.valid widened, (Retains.widened ready.valid widened).targets
    ready.targets, sized_pass ready.sized h,
    fun n => unplaced_pass ready.valid ready.sized ready.unplaced h⟩, ?_⟩
  obtain ⟨q, all, rfl⟩ := pass_ran ready.valid ready.sized h
  exact all.laid.congr rfl (fun _ _ => rfl) (fun _ _ => rfl)

/-- A pass that gives every node the offset it had is the last one. -/
theorem pass_still (ready : Ready d offsets) (h : pass pool d offsets = (.ok (), p))
    (same : ∀ n ∈ p.draft.order.toList, p.offsets.of? n = offsets.of? n) :
    p.moved = false ∧ p.settled = true := by
  obtain ⟨q, all, rfl⟩ := pass_ran ready.valid ready.sized h
  refine all.still same ?_
  intro n member label target
  have written := all.written _ (ready.targets n member label target)
  obtain ⟨offset, known, -⟩ := all.laid.known written
  have before : offsets.of? label.node = some offset := (same _ written).symm.trans known
  exact Option.isSome_of_eq_some before

/-- A pass over nodes that have offsets takes none of them back. -/
theorem pass_forward {result : Except Fault Unit} {stop : Nat} (ready : Ready d offsets)
    (laid : d.Laid pool offsets 0 d.order.toList stop)
    (h : pass pool d offsets = (result, p)) :
    (∀ n offset, offsets.of? n = some offset →
      ∃ offset', p.offsets.of? n = some offset' ∧ offset ≤ offset') ∧
      (result = .ok () → stop ≤ p.code.size) := by
  obtain ⟨q, ran, rfl⟩ := pass_eq h
  have start : Pass.Sized ⟨{ d with order := #[] }, #[], offsets, #[], false, true⟩ := ready.sized
  obtain ⟨forward, reaches⟩ := run_forward ((whole_start d offsets).symm ▸ ready.valid) start
    (laid.congr rfl (fun _ _ => rfl) (fun _ _ => rfl)) (Nat.le_refl _) ran
  refine ⟨?_, reaches⟩
  intro n offset known
  refine forward n ?_ offset known
  by_contra past
  rw [Offsets.of?_of_size_le (by rw [ready.sized]; exact Nat.le_of_not_lt past)] at known
  cases known

end Layout

end JvmAssembly
