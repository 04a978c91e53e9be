import Mathlib
import JvmAssembly.Draft.Layout
import JvmAssembly.Proofs.Draft.Validity

/-!
What layout does to a draft: it widens jumps, one at a time, and changes nothing else. A pass keeps
the nodes written so far apart from those still to come; read together they are a draft at every
moment, and writing a node either leaves that draft alone or widens the jump at the node.
-/
namespace JvmAssembly.Draft

/-- Inverts a conditional jump over a far one that is put behind it. -/
def widenCondition (d : Draft) (node : NodeId) (inverted : Opcode) (target : Label) : Draft :=
  let hop := d.nodes.size
  let jump := d.nodes.size + 1
  let d' := (d.createLabel.2.allocate (.branch Opcode.goto_w target)).placeAfter node jump
  (d'.placeAfter jump hop).setInstruction node (.branch inverted ⟨d.id, hop⟩)

/-- One jump of the draft gets wider. -/
inductive Widens (d : Draft) : Draft → Prop
  | jump {node : NodeId} {op far : Opcode} {target : Label} (member : node ∈ d.order.toList)
      (found : d.instructionAt node = .branch op target) (form : op.farForm? = some far) :
      Widens d (d.setInstruction node (.branch far target))
  | condition {node : NodeId} {op inverted : Opcode} {target : Label}
      (member : node ∈ d.order.toList) (found : d.instructionAt node = .branch op target)
      (form : op.farForm? = none) (opposite : op.invert? = some inverted) :
      Widens d (d.widenCondition node inverted target)

variable {d d' : Draft}

theorem not_isLabelNode_of_branch {node : NodeId} {op : Opcode} {target : Label}
    (found : d.instructionAt node = .branch op target) : ¬ d.IsLabelNode node := by
  rintro ⟨placed, label⟩
  rw [instructionAt_of_getElem? label] at found
  cases found

theorem Owns.branch {op : Opcode} {target : Label} (own : d.OwnsLabel target) :
    d.Owns (.branch op target) where
  targets label member := by
    rw [Instruction.targets, List.mem_singleton] at member
    exact member ▸ own
  uses v h := by cases h
  defines v h := by cases h

theorem keeps_rearrange (d : Draft) (node : NodeId) (placed : Bool) (order : Array NodeId) :
    Keeps d { d.markPlaced node placed with order } :=
  keeps_of_instructions rfl (instruction_markPlaced d node placed) (Nat.le_refl _)

theorem keeps_placeAfter (d : Draft) (anchor node : NodeId) :
    Keeps d (d.placeAfter anchor node) := by
  unfold placeAfter
  dsimp only
  split
  · exact keeps_rearrange d node true _
  · exact keeps_rearrange d node true d.order

theorem Keeps.trans {d'' : Draft} (k : Keeps d d') (k' : Keeps d' d'') : Keeps d d'' where
  id := k'.id.trans k.id
  labels n h := k'.labels n (k.labels n h)
  locals := Nat.le_trans k.locals k'.locals

section Instructions

variable (d)

theorem instructionAt_eq (n : NodeId) :
    d.instructionAt n = ((d.nodes[n]?).map Node.instruction).getD .label := by
  unfold instructionAt
  split
  · rename_i node found
    rw [found, Option.map_some, Option.getD_some]
  · rename_i missing
    rw [missing, Option.map_none, Option.getD_none]

theorem instructionAt_allocate (i : Instruction) {n : Nat} (other : n ≠ d.nodes.size) :
    (d.allocate i).instructionAt n = d.instructionAt n := by
  rw [instructionAt_eq, instructionAt_eq, allocate]
  simp only [Array.getElem?_push, other, if_false]

theorem instructionAt_allocate_size (i : Instruction) :
    (d.allocate i).instructionAt d.nodes.size = i := by
  rw [instructionAt_eq, allocate]
  simp only [Array.getElem?_push_size, Option.map_some, Option.getD_some]

theorem instructionAt_rearrange (node : NodeId) (placed : Bool) (order : Array NodeId)
    (n : NodeId) :
    { d.markPlaced node placed with order }.instructionAt n = d.instructionAt n := by
  rw [instructionAt_eq, instructionAt_eq]
  exact congrArg (Option.getD · .label) (instruction_markPlaced d node placed n)

theorem instructionAt_placeAfter (anchor node n : NodeId) :
    (d.placeAfter anchor node).instructionAt n = d.instructionAt n := by
  unfold placeAfter
  dsimp only
  split
  · exact instructionAt_rearrange d node true _ n
  · exact instructionAt_rearrange d node true d.order n

theorem instructionAt_setInstruction_ne {node n : Nat} (i : Instruction) (other : n ≠ node) :
    (d.setInstruction node i).instructionAt n = d.instructionAt n := by
  rw [instructionAt_eq, instructionAt_eq, getElem?_setInstruction]
  simp only [other, if_false, Option.map_id']

theorem instructionAt_setInstruction {node : Nat} (i : Instruction)
    (inside : node < d.nodes.size) : (d.setInstruction node i).instructionAt node = i := by
  rw [instructionAt_eq, getElem?_setInstruction, Array.getElem?_eq_getElem inside]
  simp

theorem size_placeAfter (anchor node : NodeId) :
    (d.placeAfter anchor node).nodes.size = d.nodes.size := by
  unfold placeAfter markPlaced
  dsimp only
  split <;> simp

theorem isPlacedNode_placeAfter (anchor : NodeId) {node : Nat} (inside : node < d.nodes.size)
    (n : NodeId) :
    (d.placeAfter anchor node).isPlacedNode n = if n = node then true else d.isPlacedNode n := by
  rw [← isPlacedNode_markPlaced inside]
  unfold placeAfter
  dsimp only
  split <;> rfl

theorem size_setInstruction (node : NodeId) (i : Instruction) :
    (d.setInstruction node i).nodes.size = d.nodes.size := by
  simp [setInstruction]

end Instructions

namespace widenCondition

variable {node : Nat} {inverted : Opcode} {target : Label}

theorem size : (d.widenCondition node inverted target).nodes.size = d.nodes.size + 2 := by
  simp only [widenCondition, size_setInstruction, size_placeAfter, size_allocate, createLabel]

theorem atNode (inside : node < d.nodes.size) :
    (d.widenCondition node inverted target).instructionAt node =
      .branch inverted ⟨d.id, d.nodes.size⟩ := by
  apply instructionAt_setInstruction
  simp only [size_placeAfter, size_allocate, createLabel]
  omega

theorem atJump (inside : node < d.nodes.size) :
    (d.widenCondition node inverted target).instructionAt (d.nodes.size + 1) =
      .branch Opcode.goto_w target := by
  have other : d.nodes.size + 1 ≠ node := by omega
  rw [widenCondition, instructionAt_setInstruction_ne _ _ other, instructionAt_placeAfter,
    instructionAt_placeAfter]
  rw [← size_createLabel]
  exact instructionAt_allocate_size _ _

theorem atHop (inside : node < d.nodes.size) :
    (d.widenCondition node inverted target).instructionAt d.nodes.size = .label := by
  have other : d.nodes.size ≠ node := by omega
  have last := size_createLabel d
  rw [widenCondition, instructionAt_setInstruction_ne _ _ other, instructionAt_placeAfter,
    instructionAt_placeAfter, instructionAt_allocate _ _ (by omega)]
  exact instructionAt_allocate_size d .label

theorem atOther {n : Nat} (inside : n < d.nodes.size) (other : n ≠ node) :
    (d.widenCondition node inverted target).instructionAt n = d.instructionAt n := by
  have last := size_createLabel d
  rw [widenCondition, instructionAt_setInstruction_ne _ _ other, instructionAt_placeAfter,
    instructionAt_placeAfter, instructionAt_allocate _ _ (by omega)]
  exact instructionAt_allocate d .label (by omega)

/-- The far jump and the label behind it stand right after the inverted jump. -/
theorem order_eq (valid : d.Valid) {before after : List NodeId}
    (split : d.order.toList = before ++ node :: after) :
    d.widenCondition node inverted target =
      { (((d.createLabel.2.allocate (.branch Opcode.goto_w target)).markPlaced
          (d.nodes.size + 1) true).markPlaced d.nodes.size true).setInstruction node
            (.branch inverted ⟨d.id, d.nodes.size⟩) with
        order := (before ++ node :: (d.nodes.size + 1) :: d.nodes.size :: after).toArray } := by
  have absent : node ∉ before := by
    have nodup := valid.nodup
    rw [split, List.nodup_middle, List.nodup_cons] at nodup
    exact fun member => nodup.1 (List.mem_append_left _ member)
  have fresh : d.nodes.size + 1 ∉ before ++ [node] := by
    intro member
    have inside : d.nodes.size + 1 < d.nodes.size := by
      apply valid.inside
      rw [split, List.append_cons]
      exact List.mem_append_left _ member
    omega
  unfold widenCondition
  dsimp only
  rw [placeAfter_eq (d := d.createLabel.2.allocate _) split absent]
  have behind : before ++ node :: (d.nodes.size + 1) :: after =
      (before ++ [node]) ++ (d.nodes.size + 1) :: after := by simp
  rw [placeAfter_eq behind fresh]
  simp only [List.append_assoc, List.singleton_append]
  rfl

end widenCondition

theorem Valid.ownsTarget (valid : d.Valid) {node : NodeId} {op : Opcode} {target : Label}
    (found : d.instructionAt node = .branch op target) : d.OwnsLabel target := by
  have own := (valid.owns node).targets
  rw [found] at own
  exact own target (List.mem_singleton.mpr rfl)

theorem Valid.widenCondition (valid : d.Valid) {node : Nat} (member : node ∈ d.order.toList)
    {op : Opcode} {target : Label} (found : d.instructionAt node = .branch op target)
    (inverted : Opcode) : (d.widenCondition node inverted target).Valid := by
  have inside := valid.inside member
  let labelled := d.createLabel.2
  let jumped := labelled.allocate (.branch Opcode.goto_w target)
  let linked := jumped.placeAfter node (d.nodes.size + 1)
  have size : labelled.nodes.size = d.nodes.size + 1 := size_createLabel d
  have sizeJumped : jumped.nodes.size = d.nodes.size + 2 := by
    rw [size_allocate, size]
  have marks : ∀ n, jumped.isPlacedNode n = d.isPlacedNode n := fun n =>
    (isPlacedNode_allocate labelled _ n).trans (isPlacedNode_allocate d .label n)
  have keepsLabel : Keeps d labelled := keeps_allocate d .label
  have validJumped : jumped.Valid :=
    valid.createLabel.allocate (Owns.branch (keepsLabel.label (valid.ownsTarget found)))
  have free : ∀ n, d.nodes.size ≤ n → jumped.isPlacedNode n = false := by
    intro n past
    rw [marks]
    exact isPlacedNode_of_size_le past
  have validLinked : linked.Valid := by
    refine validJumped.placeAfter ?_ (by omega) (free _ (Nat.le_succ _))
    rw [marks]
    exact (valid.placed node).mp member
  have validHop : (linked.placeAfter (d.nodes.size + 1) d.nodes.size).Valid := by
    refine validLinked.placeAfter ?_ ?_ ?_
    · rw [isPlacedNode_placeAfter _ _ (by omega)]
      exact if_pos rfl
    · rw [size_placeAfter]
      omega
    · rw [isPlacedNode_placeAfter _ _ (by omega), if_neg (Nat.ne_of_lt (Nat.lt_succ_self _))]
      exact free _ (Nat.le_refl _)
  have keepsHop : Keeps labelled (linked.placeAfter (d.nodes.size + 1) d.nodes.size) :=
    ((keeps_allocate labelled _).trans (keeps_placeAfter _ _ _)).trans (keeps_placeAfter _ _ _)
  have hop : labelled.OwnsLabel ⟨d.id, d.nodes.size⟩ :=
    ⟨rfl, false, Array.getElem?_push_size⟩
  refine validHop.setInstruction ?_ (Owns.branch (keepsHop.label hop))
  refine not_isLabelNode_of_branch (show _ = Instruction.branch op target from ?_)
  rw [instructionAt_placeAfter, instructionAt_placeAfter, instructionAt_allocate _ _ (by omega)]
  exact (instructionAt_allocate d .label (by omega)).trans found

theorem Widens.valid (valid : d.Valid) (w : Widens d d') : d'.Valid := by
  cases w with
  | jump member found form =>
      exact valid.setInstruction (not_isLabelNode_of_branch found)
        (Owns.branch (valid.ownsTarget found))
  | condition member found form opposite =>
      exact valid.widenCondition member found _

/-- Only jumps are ever too far. -/
theorem encode_tooFar {pool : Pool} {offsets : Offsets} {offset : Nat} {i : Instruction}
    {op : Opcode} {target : Label} {distance : Int}
    (h : d.encode pool offsets offset i = .ok (.tooFar op target distance)) :
    i = .branch op target ∧ ∃ there, offsets.of? target.node = some there ∧
      distance = (there : Int) - offset := by
  cases i with
  | branch op' target' =>
      simp only [encode, Encoding.branch, Except.ok.injEq] at h
      split at h
      · cases h
      · rename_i there known
        split at h
        · cases h
        · split at h
          · cases h
          · cases h
            exact ⟨rfl, there, known, rfl⟩
  | label => simp [encode, Encoding.fixed] at h
  | simple op => simp [encode, Encoding.fixed] at h
  | immediate op n =>
      simp only [encode] at h
      split at h <;> cases h
  | constant op entry adj =>
      obtain ⟨index, -, h⟩ := bind_eq_ok.mp h
      cases h
  | invoke op entry adj slots =>
      obtain ⟨index, -, h⟩ := bind_eq_ok.mp h
      cases h
  | multiNewArray entry dimensions =>
      obtain ⟨index, -, h⟩ := bind_eq_ok.mp h
      cases h
  | load v kind =>
      obtain ⟨slot, -, h⟩ := bind_eq_ok.mp h
      cases h
  | store v kind discard =>
      cases discard with
      | true => cases h
      | false =>
          obtain ⟨slot, -, h⟩ := bind_eq_ok.mp h
          cases h
  | increment v amount =>
      obtain ⟨slot, -, h⟩ := bind_eq_ok.mp h
      cases h
  | ret v =>
      obtain ⟨slot, -, h⟩ := bind_eq_ok.mp h
      cases h
  | switch default cases table =>
      simp only [encode, Encoding.switch, Except.ok.injEq] at h
      split at h <;> cases h

end JvmAssembly.Draft

namespace JvmAssembly.Layout.Pass

open Draft Relation

/-- The draft in the middle of a pass: what has been written, then what is still to come. -/
def whole (p : Pass) (rest : List NodeId) : Draft :=
  { p.draft with order := p.order ++ rest }

variable {pool : Pool} {p p' : Pass} {node : NodeId} {rest : List NodeId}

theorem order_whole (p : Pass) (rest : List NodeId) :
    (p.whole rest).order.toList = p.order.toList ++ rest := by
  simp [whole]

theorem mark_draft (p : Pass) (node : NodeId) (isLabel : Bool) :
    (p.mark node isLabel).draft = p.draft := by
  unfold mark
  dsimp only
  split <;> rfl

theorem mark_order (p : Pass) (node : NodeId) (isLabel : Bool) :
    (p.mark node isLabel).order = p.order := by
  unfold mark
  dsimp only
  split <;> rfl

theorem mark_code (p : Pass) (node : NodeId) (isLabel : Bool) :
    (p.mark node isLabel).code = p.code := by
  unfold mark
  dsimp only
  split <;> rfl

theorem whole_write (p : Pass) (node : NodeId) (code : Bytes) (settled : Bool)
    (rest : List NodeId) : (p.write node code settled).whole rest = p.whole (node :: rest) := by
  have order : p.order.push node ++ rest = p.order ++ (node :: rest) := by
    apply Array.toList_inj.mp
    simp
  unfold whole write
  rw [order]

/-- A draft that layout has come to: the one it began with, with some jumps widened. -/
abbrev Widened : Draft → Draft → Prop := ReflTransGen Widens

theorem widenCondition_draft (p : Pass) (node : NodeId) (inverted : Opcode) (target : Label)
    (distance : Int) :
    (p.widenCondition node inverted target distance).draft =
      ((((p.draft.createLabel.2.allocate (.branch Opcode.goto_w target)).markPlaced
        (p.draft.nodes.size + 1) true).markPlaced p.draft.nodes.size true).setInstruction node
          (.branch inverted ⟨p.draft.id, p.draft.nodes.size⟩)) := by
  simp only [Pass.widenCondition, write, mark_draft, size_createLabel]
  rfl

theorem widenCondition_order (p : Pass) (node : NodeId) (inverted : Opcode) (target : Label)
    (distance : Int) :
    (p.widenCondition node inverted target distance).order =
      ((p.order.push node).push (p.draft.nodes.size + 1)).push p.draft.nodes.size := by
  simp only [Pass.widenCondition, write, mark_order, size_createLabel]
  rfl

theorem whole_widenCondition {inverted : Opcode} {target : Label} {distance : Int}
    (valid : (p.whole (node :: rest)).Valid) :
    (p.widenCondition node inverted target distance).whole rest =
      (p.whole (node :: rest)).widenCondition node inverted target := by
  rw [widenCondition.order_eq valid (order_whole p (node :: rest))]
  have order : ((p.order.push node).push (p.draft.nodes.size + 1)).push p.draft.nodes.size ++
      rest = (p.order.toList ++
        node :: (p.draft.nodes.size + 1) :: p.draft.nodes.size :: rest).toArray := by
    apply Array.toList_inj.mp
    simp
  unfold whole
  rw [widenCondition_draft, widenCondition_order, order]
  rfl

/-- Writing a node leaves the draft alone or widens the jump at the node. -/
theorem step_widens (valid : (p.whole (node :: rest)).Valid)
    (h : p.step pool node = (.ok (), p')) :
    Widened (p.whole (node :: rest)) (p'.whole rest) := by
  have member : node ∈ (p.whole (node :: rest)).order.toList := by
    rw [order_whole]
    simp
  have same : ∀ isLabel, (p.mark node isLabel).whole (node :: rest) = p.whole (node :: rest) := by
    intro isLabel
    unfold whole
    rw [mark_draft, mark_order]
  unfold step at h
  dsimp only at h
  rw [mark_draft] at h
  split at h
  · cases h
  · cases h
    rw [whole_write, same]
  · rename_i op target distance far
    obtain ⟨found, -⟩ := encode_tooFar far
    unfold widen at h
    split at h
    · rename_i wide form
      cases h
      rw [widenJump, whole_write]
      change Widened _ (((p.mark node _).whole (node :: rest)).setInstruction node _)
      rw [same]
      exact .single (.jump member found form)
    · rename_i form
      split at h
      · rename_i inverted opposite
        cases h
        rw [whole_widenCondition (by rw [same]; exact valid), same]
        exact .single (.condition member found form opposite)
      · cases h

theorem step_error {fault : Fault} (h : p.step pool node = (.error fault, p')) :
    p'.draft = p.draft ∧ p'.order = p.order := by
  unfold step at h
  dsimp only at h
  split at h
  · cases h
    exact ⟨mark_draft .., mark_order ..⟩
  · cases h
  · unfold widen at h
    split at h
    · cases h
    · split at h
      · cases h
      · cases h
        exact ⟨mark_draft .., mark_order ..⟩

theorem valid_widened {d d' : Draft} (valid : d.Valid) (w : Widened d d') : d'.Valid := by
  induction w with
  | refl => exact valid
  | tail _ last ih => exact last.valid ih

theorem run_widens {result : Except Fault Unit} (valid : (p.whole rest).Valid)
    (h : run pool rest p = (result, p')) : Widened (p.whole rest) (p'.whole []) := by
  induction rest generalizing p with
  | nil =>
      cases h
      exact .refl
  | cons node rest ih =>
      unfold run at h
      split at h
      · rename_i q stepped
        have first := step_widens valid stepped
        exact first.trans (ih (valid_widened valid first) h)
      · rename_i fault q stepped
        cases h
        obtain ⟨draft, order⟩ := step_error stepped
        have same : { q with order := q.order ++ (node :: rest) }.whole [] =
            p.whole (node :: rest) := by
          simp [whole, draft, order]
        rw [same]

end JvmAssembly.Layout.Pass

namespace JvmAssembly.Layout

open Draft Pass

variable {pool : Pool} {d d' : Draft}

theorem whole_start (d : Draft) (offsets : Offsets) :
    Pass.whole ⟨{ d with order := #[] }, #[], offsets, #[], false, true⟩ d.order.toList = d := by
  simp [whole]

theorem pass_eq {offsets : Offsets} {result : Except Fault Unit} {p : Pass}
    (h : pass pool d offsets = (result, p)) :
    ∃ q, run pool d.order.toList ⟨{ d with order := #[] }, #[], offsets, #[], false, true⟩ =
        (result, q) ∧ p = { q with draft := { q.draft with order := q.order }, order := #[] } := by
  cases ran : run pool d.order.toList ⟨{ d with order := #[] }, #[], offsets, #[], false, true⟩ with
  | mk outcome q =>
      unfold pass at h
      dsimp only at h
      rw [ran] at h
      cases h
      exact ⟨q, rfl, rfl⟩

theorem pass_widens {offsets : Offsets} {result : Except Fault Unit} {p : Pass} (valid : d.Valid)
    (h : pass pool d offsets = (result, p)) : Widened d p.draft := by
  obtain ⟨q, ran, rfl⟩ := pass_eq h
  have widened := run_widens ((whole_start d offsets).symm ▸ valid) ran
  rw [whole_start] at widened
  simpa [whole] using widened

theorem settle_widens {budget : Nat} {offsets : Offsets} {result : Except Fault Layout}
    (valid : d.Valid) (h : settle pool budget offsets d = (result, d')) : Widened d d' := by
  induction budget generalizing offsets d with
  | zero =>
      cases h
      exact .refl
  | succ budget ih =>
      unfold settle at h
      split at h
      · rename_i fault p passed
        cases h
        exact pass_widens valid passed
      · rename_i p passed
        have first := pass_widens valid passed
        split at h
        · cases h
          exact first
        · split at h
          · cases h
            exact first
          · exact first.trans (ih (valid_widened valid first) h)

/-- Whatever comes of a layout, all it did to the draft is widen jumps. -/
theorem layout_widens {result : Except Fault Layout} (valid : d.Valid)
    (h : d.layout pool = (result, d')) : Widened d d' :=
  settle_widens valid h

end JvmAssembly.Layout
