import Mathlib
import JvmAssembly.Draft.Edit
import JvmAssembly.Proofs.Outcome

/-!
What holds of every draft at all times: the sequence lists the placed nodes once each, operands
are handles of the draft itself, and fixed slots stay what they are. Edits build on a few moves of
nodes, and each of these moves keeps the invariant.
-/
namespace JvmAssembly.Draft

/-- The node exists and is a label. -/
def IsLabelNode (d : Draft) (n : NodeId) : Prop :=
  ∃ placed, d.nodes[n]? = some ⟨.label, placed⟩

def OwnsLabel (d : Draft) (label : Label) : Prop :=
  label.draft = d.id ∧ d.IsLabelNode label.node

def OwnsLocal (d : Draft) (v : Local) : Prop :=
  v.draft = d.id ∧ v.index < d.locals.size

/-- Every label and every local of the instruction belongs to the draft. -/
structure Owns (d : Draft) (i : Instruction) : Prop where
  targets : ∀ label ∈ i.targets, d.OwnsLabel label
  uses : ∀ v, i.uses = some v → d.OwnsLocal v
  defines : ∀ v, i.defines = some v → d.OwnsLocal v

def OwnsHandler (d : Draft) (h : Handler) : Prop :=
  d.OwnsLabel h.start ∧ d.OwnsLabel h.stop ∧ d.OwnsLabel h.entry

structure Valid (d : Draft) : Prop where
  nodup : d.order.toList.Nodup
  placed : ∀ n, n ∈ d.order.toList ↔ d.isPlacedNode n = true
  operands : ∀ (n : NodeId) (node : Node), d.nodes[n]? = some node → d.Owns node.instruction
  handlers : ∀ h ∈ d.handlers, d.OwnsHandler h
  lines : ∀ l ∈ d.lines, d.OwnsLabel l.1
  fixed : ∀ info ∈ d.locals, ∀ slot, info.fixedSlot = some slot → info.slot = some slot

theorem checkLabel_eq_ok {d : Draft} {label : Label} :
    d.checkLabel label = .ok () ↔ d.OwnsLabel label := by
  unfold checkLabel OwnsLabel IsLabelNode
  split
  · rename_i placed found
    simp [found]
  · rename_i other
    constructor
    · intro h
      cases h
    · rintro ⟨_, placed, found⟩
      exact absurd found (other placed)

theorem localInfo_eq_ok {d : Draft} {v : Local} {info : LocalInfo} :
    d.localInfo v = .ok info ↔ v.draft = d.id ∧ d.locals[v.index]? = some info := by
  unfold localInfo
  split
  · rename_i found stored
    split
    · rename_i same
      simp [stored, same]
    · rename_i foreign
      simp [foreign]
  · rename_i missing
    simp [missing]

theorem checkLocal_eq_ok {d : Draft} {v : Option Local} :
    d.checkLocal v = .ok () ↔ ∀ x, v = some x → d.OwnsLocal x := by
  cases v with
  | none => simp [checkLocal]
  | some v =>
      simp only [checkLocal, Option.some.injEq, forall_eq']
      constructor
      · intro h
        cases found : d.localInfo v with
        | error fault => simp [found] at h
        | ok info =>
            obtain ⟨same, stored⟩ := localInfo_eq_ok.mp found
            exact ⟨same, (Array.getElem?_eq_some_iff.mp stored).1⟩
      · rintro ⟨same, inside⟩
        rw [localInfo_eq_ok.mpr ⟨same, Array.getElem?_eq_getElem inside⟩]

theorem checkInstruction_eq_ok {d : Draft} {i : Instruction} :
    d.checkInstruction i = .ok () ↔ d.Owns i := by
  unfold checkInstruction
  simp only [bind_unit_eq_ok, forM_eq_ok, checkLocal_eq_ok, checkLabel_eq_ok]
  exact ⟨fun h => ⟨h.1, h.2.1, h.2.2⟩, fun h => ⟨h.targets, h.uses, h.defines⟩⟩

theorem checkHandler_eq_ok {d : Draft} {h : Handler} :
    d.checkHandler h = .ok () ↔ d.OwnsHandler h := by
  unfold checkHandler OwnsHandler
  simp only [bind_unit_eq_ok, checkLabel_eq_ok]

/-- A later draft in which the handles of an earlier one are still good. -/
structure Keeps (d d' : Draft) : Prop where
  id : d'.id = d.id
  labels : ∀ n, d.IsLabelNode n → d'.IsLabelNode n
  locals : d.locals.size ≤ d'.locals.size

namespace Keeps

variable {d d' : Draft}

theorem label (k : Keeps d d') {label : Label} (h : d.OwnsLabel label) : d'.OwnsLabel label :=
  ⟨h.1.trans k.id.symm, k.labels _ h.2⟩

theorem var (k : Keeps d d') {v : Local} (h : d.OwnsLocal v) : d'.OwnsLocal v :=
  ⟨h.1.trans k.id.symm, Nat.lt_of_lt_of_le h.2 k.locals⟩

theorem owns (k : Keeps d d') {i : Instruction} (h : d.Owns i) : d'.Owns i :=
  ⟨fun l hl => k.label (h.targets l hl), fun v hv => k.var (h.uses v hv),
    fun v hv => k.var (h.defines v hv)⟩

theorem handler (k : Keeps d d') {h : Handler} (own : d.OwnsHandler h) : d'.OwnsHandler h :=
  ⟨k.label own.1, k.label own.2.1, k.label own.2.2⟩

end Keeps

theorem isPlacedNode_eq_true {d : Draft} {n : NodeId} :
    d.isPlacedNode n = true ↔ ∃ i, d.nodes[n]? = some ⟨i, true⟩ := by
  unfold isPlacedNode
  cases found : d.nodes[n]? with
  | none => simp
  | some node =>
      obtain ⟨i, placed⟩ := node
      simp

theorem Valid.inside {d : Draft} (valid : d.Valid) {n : Nat} (h : n ∈ d.order.toList) :
    n < d.nodes.size := by
  obtain ⟨i, found⟩ := isPlacedNode_eq_true.mp ((valid.placed n).mp h)
  exact (Array.getElem?_eq_some_iff.mp found).1

theorem instructionAt_of_getElem? {d : Draft} {n : NodeId} {node : Node}
    (h : d.nodes[n]? = some node) : d.instructionAt n = node.instruction := by
  simp only [instructionAt, h]

theorem Valid.owns {d : Draft} (valid : d.Valid) (n : NodeId) : d.Owns (d.instructionAt n) := by
  unfold instructionAt
  split
  · rename_i node found
    exact valid.operands n node found
  · exact ⟨by simp [Instruction.targets], by simp [Instruction.uses], by simp [Instruction.defines]⟩

theorem valid_empty (id : Nat) : (empty id).Valid where
  nodup := by simp [empty]
  placed n := by simp [empty, isPlacedNode]
  operands n node h := by simp [empty] at h
  handlers h member := by simp [empty] at member
  lines l member := by simp [empty] at member
  fixed info member := by simp [empty] at member

section Moves

variable {d : Draft}

theorem keeps_allocate (d : Draft) (i : Instruction) : Keeps d (d.allocate i) where
  id := rfl
  labels n h := by
    obtain ⟨placed, found⟩ := h
    have inside := (Array.getElem?_eq_some_iff.mp found).1
    exact ⟨placed, by simpa [allocate, Array.getElem?_push, Nat.ne_of_lt inside] using found⟩
  locals := Nat.le_refl _

theorem isPlacedNode_allocate (d : Draft) (i : Instruction) (n : NodeId) :
    (d.allocate i).isPlacedNode n = d.isPlacedNode n := by
  by_cases last : n = d.nodes.size
  · subst last
    simp [isPlacedNode, allocate]
  · simp [isPlacedNode, allocate, Array.getElem?_push, last]

theorem Valid.allocate (valid : d.Valid) {i : Instruction} (own : d.Owns i) :
    (d.allocate i).Valid where
  nodup := valid.nodup
  placed n := by
    rw [isPlacedNode_allocate]
    exact valid.placed n
  operands n node h := by
    apply (keeps_allocate d i).owns
    by_cases last : n = d.nodes.size
    · subst last
      simp only [Draft.allocate, Array.getElem?_push_size, Option.some.injEq] at h
      exact h ▸ own
    · simp only [Draft.allocate, Array.getElem?_push, last, if_false] at h
      exact valid.operands n node h
  handlers h member := (keeps_allocate d i).handler (valid.handlers h member)
  lines l member := (keeps_allocate d i).label (valid.lines l member)
  fixed := valid.fixed

theorem getElem?_markPlaced (d : Draft) (node : NodeId) (placed : Bool) (n : NodeId) :
    (d.markPlaced node placed).nodes[n]? =
      (d.nodes[n]?).map fun x => if n = node then { x with placed } else x := by
  by_cases same : node = n
  · subst same
    simp [markPlaced, Array.getElem?_modify]
  · have other : n ≠ node := fun h => same h.symm
    simp [markPlaced, Array.getElem?_modify, same, other]

theorem keeps_of_instructions {d' : Draft} (id : d'.id = d.id)
    (nodes : ∀ n : NodeId, (d'.nodes[n]?).map Node.instruction = (d.nodes[n]?).map Node.instruction)
    (locals : d.locals.size ≤ d'.locals.size) : Keeps d d' where
  id := id
  labels n h := by
    obtain ⟨placed, found⟩ := h
    have same := nodes n
    rw [found] at same
    obtain ⟨⟨i, placed'⟩, found', label⟩ := Option.map_eq_some_iff.mp same
    cases label
    exact ⟨placed', found'⟩
  locals := locals

theorem instruction_markPlaced (d : Draft) (node : NodeId) (placed : Bool) (n : NodeId) :
    ((d.markPlaced node placed).nodes[n]?).map Node.instruction =
      (d.nodes[n]?).map Node.instruction := by
  rw [getElem?_markPlaced, Option.map_map]
  congr 1
  funext x
  simp only [Function.comp_apply]
  split <;> rfl

theorem isPlacedNode_markPlaced {node : Nat} (inside : node < d.nodes.size) (placed : Bool)
    (n : NodeId) :
    (d.markPlaced node placed).isPlacedNode n =
      if n = node then placed else d.isPlacedNode n := by
  unfold isPlacedNode
  rw [getElem?_markPlaced]
  by_cases same : n = node
  · subst same
    simp [inside]
  · simp only [same, if_false]
    cases d.nodes[n]? <;> rfl

/-- The same nodes, placed differently: only the sequence and the marks have to agree. -/
theorem Valid.rearrange (valid : d.Valid) (node : NodeId) (placed : Bool) {order : Array NodeId}
    (nodup : order.toList.Nodup)
    (agree : ∀ n, n ∈ order.toList ↔ (d.markPlaced node placed).isPlacedNode n = true) :
    { d.markPlaced node placed with order }.Valid := by
  have k : Keeps d { d.markPlaced node placed with order } :=
    keeps_of_instructions rfl (instruction_markPlaced d node placed) (Nat.le_refl _)
  refine ⟨nodup, agree, ?_, ?_, ?_, valid.fixed⟩
  · intro n x found
    have same := instruction_markPlaced d node placed n
    rw [show (d.markPlaced node placed).nodes[n]? = some x from found] at same
    obtain ⟨y, stored, equal⟩ := Option.map_eq_some_iff.mp same.symm
    exact equal ▸ k.owns (valid.operands n y stored)
  · intro h member
    exact k.handler (valid.handlers h member)
  · intro l member
    exact k.label (valid.lines l member)

theorem Valid.place (valid : d.Valid) {node : Nat} (inside : node < d.nodes.size)
    (free : d.isPlacedNode node = false) {order : Array NodeId}
    (perm : order.toList.Perm (node :: d.order.toList)) :
    { d.markPlaced node true with order }.Valid := by
  have absent : node ∉ d.order.toList := by
    rw [valid.placed, free]
    exact Bool.false_ne_true
  refine valid.rearrange node true
    (perm.nodup_iff.mpr (List.nodup_cons.mpr ⟨absent, valid.nodup⟩)) ?_
  intro n
  rw [perm.mem_iff, List.mem_cons, isPlacedNode_markPlaced inside, valid.placed]
  split <;> simp_all

theorem Valid.placeLast (valid : d.Valid) {node : Nat} (inside : node < d.nodes.size)
    (free : d.isPlacedNode node = false) : (d.placeLast node).Valid := by
  refine valid.place inside free ?_
  change ((d.order.push node).toList).Perm _
  rw [Array.toList_push]
  exact List.perm_append_singleton node _

theorem idxOf?_append {before after : List NodeId} {anchor : NodeId} (absent : anchor ∉ before) :
    (before ++ anchor :: after).idxOf? anchor = some before.length := by
  rw [List.idxOf?_eq_some_iff]
  refine ⟨by simp, by simp, ?_⟩
  intro j hj
  rw [List.getElem_append_left hj]
  exact fun same => absent (same ▸ List.getElem_mem hj)

theorem insertIdx_append (before after : List NodeId) (anchor node : NodeId) :
    (before ++ anchor :: after).insertIdx (before.length + 1) node =
      before ++ anchor :: node :: after := by
  induction before with
  | nil => simp
  | cons n before ih => simp only [List.cons_append, List.length_cons, List.insertIdx_succ_cons, ih]

/-- Putting a node behind another one leaves the rest of the sequence as it is. -/
theorem placeAfter_eq {anchor node : NodeId} {before after : List NodeId}
    (split : d.order.toList = before ++ anchor :: after) (absent : anchor ∉ before) :
    d.placeAfter anchor node =
      { d.markPlaced node true with order := (before ++ anchor :: node :: after).toArray } := by
  have order : d.order = (before ++ anchor :: after).toArray := by
    rw [← split]
  unfold Draft.placeAfter
  simp only [show (d.markPlaced node true).order = (before ++ anchor :: after).toArray from order,
    List.idxOf?_toArray, idxOf?_append absent]
  have inside : before.length + 1 ≤ (before ++ anchor :: after).toArray.size := by simp
  rw [Array.insertIdxIfInBounds, dif_pos inside]
  congr 1
  apply Array.toList_inj.mp
  rw [Array.toList_insertIdx]
  exact insertIdx_append before after anchor node

theorem Valid.placeAfter (valid : d.Valid) {anchor node : Nat}
    (placed : d.isPlacedNode anchor = true) (inside : node < d.nodes.size)
    (free : d.isPlacedNode node = false) : (d.placeAfter anchor node).Valid := by
  have member := (valid.placed anchor).mpr placed
  obtain ⟨before, after, split, absent⟩ := List.eq_append_cons_of_mem member
  rw [placeAfter_eq split absent]
  refine valid.place inside free ?_
  rw [split]
  change (before ++ anchor :: node :: after).Perm (node :: (before ++ anchor :: after))
  rw [← List.singleton_append, ← List.append_assoc, List.append_cons before anchor after]
  exact List.perm_middle

theorem Valid.unplace (valid : d.Valid) {node : Nat} (inside : node < d.nodes.size) :
    { d.markPlaced node false with order := d.order.erase node }.Valid := by
  have erased : (d.order.erase node).toList = d.order.toList.erase node := Array.toList_erase ..
  refine valid.rearrange node false (erased ▸ valid.nodup.erase node) ?_
  intro n
  rw [erased, valid.nodup.mem_erase_iff, isPlacedNode_markPlaced inside, valid.placed]
  split <;> simp_all

theorem getElem?_setInstruction (d : Draft) (node : NodeId) (i : Instruction) (n : NodeId) :
    (d.setInstruction node i).nodes[n]? =
      (d.nodes[n]?).map fun x => if n = node then { x with instruction := i } else x := by
  by_cases same : node = n
  · subst same
    simp [setInstruction, Array.getElem?_modify]
  · have other : n ≠ node := fun h => same h.symm
    simp [setInstruction, Array.getElem?_modify, same, other]

theorem isPlacedNode_setInstruction (d : Draft) (node : NodeId) (i : Instruction) (n : NodeId) :
    (d.setInstruction node i).isPlacedNode n = d.isPlacedNode n := by
  unfold isPlacedNode
  rw [getElem?_setInstruction]
  cases d.nodes[n]? with
  | none => rfl
  | some x =>
      simp only [Option.map_some]
      split <;> rfl

theorem keeps_setInstruction {node : NodeId} (other : ¬ d.IsLabelNode node) (i : Instruction) :
    Keeps d (d.setInstruction node i) where
  id := rfl
  labels n h := by
    have distinct : n ≠ node := fun same => other (same ▸ h)
    obtain ⟨placed, found⟩ := h
    refine ⟨placed, ?_⟩
    rw [getElem?_setInstruction, found]
    simp only [Option.map_some, distinct, if_false]
  locals := Nat.le_refl _

theorem Valid.setInstruction (valid : d.Valid) {node : NodeId} (other : ¬ d.IsLabelNode node)
    {i : Instruction} (own : d.Owns i) : (d.setInstruction node i).Valid := by
  have k := keeps_setInstruction other i
  refine ⟨valid.nodup, ?_, ?_, ?_, ?_, valid.fixed⟩
  · intro n
    rw [isPlacedNode_setInstruction]
    exact valid.placed n
  · intro n x found
    rw [getElem?_setInstruction] at found
    obtain ⟨y, stored, rfl⟩ := Option.map_eq_some_iff.mp found
    apply k.owns
    split
    · exact own
    · exact valid.operands n y stored
  · intro h member
    exact k.handler (valid.handlers h member)
  · intro l member
    exact k.label (valid.lines l member)

/-- Locals are free as long as none goes away and a fixed slot is the one in use. -/
theorem Valid.relocate (valid : d.Valid) {locals : Array LocalInfo}
    (size : d.locals.size ≤ locals.size)
    (fixed : ∀ info ∈ locals, ∀ slot, info.fixedSlot = some slot → info.slot = some slot) :
    { d with locals }.Valid := by
  have k : Keeps d { d with locals } := keeps_of_instructions rfl (fun _ => rfl) size
  refine ⟨valid.nodup, valid.placed, ?_, ?_, ?_, fixed⟩
  · intro n x found
    exact k.owns (valid.operands n x found)
  · intro h member
    exact k.handler (valid.handlers h member)
  · intro l member
    exact k.label (valid.lines l member)

theorem Valid.createLocal (valid : d.Valid) (name : Option String) (type : FieldType)
    (slot : Option UInt16) : (d.createLocal name type slot).2.Valid := by
  refine valid.relocate (by simp) ?_
  intro info member slot' fixed
  rcases Array.mem_push.mp member with old | rfl
  · exact valid.fixed info old slot' fixed
  · exact fixed

theorem Valid.createLabel (valid : d.Valid) : d.createLabel.2.Valid :=
  valid.allocate ⟨by simp [Instruction.targets], by simp [Instruction.uses],
    by simp [Instruction.defines]⟩

theorem isPlacedNode_of_size_le {n : Nat} (h : d.nodes.size ≤ n) : d.isPlacedNode n = false := by
  simp only [isPlacedNode, Array.getElem?_eq_none h]

theorem size_allocate (d : Draft) (i : Instruction) :
    (d.allocate i).nodes.size = d.nodes.size + 1 := by
  simp [allocate]

theorem size_createLabel (d : Draft) : d.createLabel.2.nodes.size = d.nodes.size + 1 :=
  size_allocate d .label

/-- Handlers, line numbers and settings are free as long as they name labels of the draft. -/
theorem Valid.annotate (valid : d.Valid) {handlers : Array Handler}
    {lines : Array (Label × UInt16)} (tracksLocals : Bool) (reservedSlots : UInt16)
    (own : ∀ h ∈ handlers, d.OwnsHandler h) (ownLines : ∀ l ∈ lines, d.OwnsLabel l.1) :
    { d with handlers, lines, tracksLocals, reservedSlots }.Valid := by
  have k : Keeps d { d with handlers, lines, tracksLocals, reservedSlots } :=
    keeps_of_instructions rfl (fun _ => rfl) (Nat.le_refl _)
  refine ⟨valid.nodup, valid.placed, ?_, own, ownLines, valid.fixed⟩
  intro n x found
  exact k.owns (valid.operands n x found)

theorem Valid.markLine (valid : d.Valid) (line : UInt16) : (d.markLine line).Valid := by
  have inside : d.nodes.size < d.createLabel.2.nodes.size := by
    rw [size_createLabel]
    exact Nat.lt_succ_self _
  have free : d.createLabel.2.isPlacedNode d.nodes.size = false := by
    rw [Draft.createLabel, isPlacedNode_allocate]
    exact isPlacedNode_of_size_le (Nat.le_refl _)
  have placed := valid.createLabel.placeLast inside free
  refine placed.annotate _ _ placed.handlers ?_
  intro l member
  rcases Array.mem_push.mp member with old | rfl
  · exact placed.lines l old
  · refine ⟨rfl, true, ?_⟩
    change (d.createLabel.2.markPlaced d.nodes.size true).nodes[d.nodes.size]? = _
    rw [getElem?_markPlaced]
    simp [Draft.createLabel, Draft.allocate]

end Moves

/-! Every edit keeps the invariant, whether it succeeds or not. -/

section Edits

variable {d : Draft}

theorem checkPlaceable_eq_ok {label : Label} :
    d.checkPlaceable label = .ok () ↔ d.OwnsLabel label ∧ d.isPlacedNode label.node = false := by
  unfold checkPlaceable
  cases found : d.checkLabel label with
  | error fault =>
      have foreign : ¬ d.OwnsLabel label := by
        rw [← checkLabel_eq_ok, found]
        simp
      simp [foreign]
  | ok u =>
      have own := checkLabel_eq_ok.mp found
      cases placed : d.isPlacedNode label.node <;> simp [own]

theorem OwnsLabel.inside {label : Label} (h : d.OwnsLabel label) : label.node < d.nodes.size := by
  obtain ⟨-, placed, found⟩ := h
  exact (Array.getElem?_eq_some_iff.mp found).1

theorem checkPlaced_eq_ok {n : NodeId} : d.checkPlaced n = .ok () ↔ d.isPlacedNode n = true := by
  unfold checkPlaced
  split <;> simp_all

theorem valid_placeLabel (valid : d.Valid) (label : Label) : (placeLabel label d).2.Valid := by
  unfold placeLabel
  cases check : d.checkPlaceable label with
  | error fault => exact valid
  | ok u =>
      obtain ⟨own, free⟩ := checkPlaceable_eq_ok.mp check
      exact valid.placeLast own.inside free

theorem valid_placeLabelAfter (valid : d.Valid) (anchor : NodeId) (label : Label) :
    (placeLabelAfter anchor label d).2.Valid := by
  unfold placeLabelAfter
  cases linked : d.checkPlaced anchor with
  | error fault => exact valid
  | ok u =>
      cases check : d.checkPlaceable label with
      | error fault => exact valid
      | ok u =>
          obtain ⟨own, free⟩ := checkPlaceable_eq_ok.mp check
          exact valid.placeAfter (checkPlaced_eq_ok.mp linked) own.inside free

theorem valid_push (valid : d.Valid) (i : Instruction) : (push i d).2.Valid := by
  unfold push
  cases check : d.checkInstruction i with
  | error fault => exact valid
  | ok u =>
      refine (valid.allocate (checkInstruction_eq_ok.mp check)).placeLast ?_ ?_
      · simp [allocate]
      · rw [isPlacedNode_allocate]
        exact isPlacedNode_of_size_le (Nat.le_refl _)

theorem valid_insertAfter (valid : d.Valid) (anchor : NodeId) (i : Instruction) :
    (insertAfter anchor i d).2.Valid := by
  unfold insertAfter
  cases linked : d.checkPlaced anchor with
  | error fault => exact valid
  | ok u =>
      cases check : d.checkInstruction i with
      | error fault => exact valid
      | ok u =>
          refine (valid.allocate (checkInstruction_eq_ok.mp check)).placeAfter ?_ ?_ ?_
          · rw [isPlacedNode_allocate]
            exact checkPlaced_eq_ok.mp linked
          · simp [allocate]
          · rw [isPlacedNode_allocate]
            exact isPlacedNode_of_size_le (Nat.le_refl _)

theorem inside_of_isPlacedNode {n : Nat} (h : d.isPlacedNode n = true) : n < d.nodes.size := by
  obtain ⟨i, found⟩ := isPlacedNode_eq_true.mp h
  exact (Array.getElem?_eq_some_iff.mp found).1

theorem valid_remove (valid : d.Valid) (node : NodeId) : (remove node d).2.Valid := by
  unfold remove
  cases check : d.checkRemovable node with
  | error fault => exact valid
  | ok u =>
      refine valid.unplace ?_
      unfold checkRemovable at check
      cases linked : d.checkPlaced node with
      | error fault => simp [linked] at check
      | ok u => exact inside_of_isPlacedNode (checkPlaced_eq_ok.mp linked)

theorem valid_replace (valid : d.Valid) (node : NodeId) (i : Instruction) :
    (replace node i d).2.Valid := by
  unfold replace
  cases check : d.checkReplacement node i with
  | error fault => exact valid
  | ok u =>
      unfold checkReplacement at check
      cases linked : d.checkPlaced node with
      | error fault => simp [linked] at check
      | ok u =>
          simp only [linked] at check
          split at check
          · cases check
          · rename_i plain
            refine valid.setInstruction ?_ (checkInstruction_eq_ok.mp check)
            rintro ⟨placed, found⟩
            simp [instructionAt_of_getElem? found, Instruction.isLabel] at plain

theorem valid_addHandler (valid : d.Valid) (h : Handler) : (addHandler h d).2.Valid := by
  unfold addHandler
  cases check : d.checkHandler h with
  | error fault => exact valid
  | ok u =>
      refine valid.annotate _ _ ?_ valid.lines
      intro h' member
      rcases Array.mem_push.mp member with old | rfl
      · exact valid.handlers h' old
      · exact checkHandler_eq_ok.mp check

end Edits

end JvmAssembly.Draft
