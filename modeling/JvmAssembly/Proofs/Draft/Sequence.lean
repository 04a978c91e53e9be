import Mathlib
import JvmAssembly.Proofs.Draft.Links

/-!
A draft as a sequence of nodes. Its links lead through the placed nodes from the first to the last
one and back, and an edit does to the draft what the like edit does to a plain list, with no other
link changed than those at the edited place; one that fails does nothing. This holds after any
number of edits from an empty draft.
-/
namespace JvmAssembly

/-- An edit that changes nothing when it fails. -/
def Edit.Atomic {α : Type} (e : Edit α) : Prop :=
  ∀ (d : Draft) (fault : Fault) (d' : Draft), e d = (.error fault, d') → d' = d

theorem Edit.Atomic.discard {α : Type} {e : Edit α} (atomic : e.Atomic) :
    (discard e : Edit Unit).Atomic := by
  intro d fault d' failed
  rw [run_discard] at failed
  cases ran : e d with
  | mk result after =>
      rw [ran] at failed
      cases result with
      | ok a => cases failed
      | error fault' =>
          cases failed
          exact atomic d _ _ ran

namespace Draft

section Atomic

theorem atomic_placeLabel (label : Label) : (placeLabel label).Atomic := by
  intro d fault d' failed
  unfold placeLabel at failed
  split at failed <;> cases failed
  rfl

theorem atomic_placeLabelAfter (anchor : NodeId) (label : Label) :
    (placeLabelAfter anchor label).Atomic := by
  intro d fault d' failed
  unfold placeLabelAfter at failed
  split at failed
  · cases failed
    rfl
  · split at failed <;> cases failed
    rfl

theorem atomic_push (i : Instruction) : (push i).Atomic := by
  intro d fault d' failed
  unfold push at failed
  split at failed <;> cases failed
  rfl

theorem atomic_insertAfter (anchor : NodeId) (i : Instruction) : (insertAfter anchor i).Atomic := by
  intro d fault d' failed
  unfold insertAfter at failed
  split at failed
  · cases failed
    rfl
  · split at failed <;> cases failed
    rfl

theorem atomic_remove (node : NodeId) : (remove node).Atomic := by
  intro d fault d' failed
  unfold remove at failed
  split at failed <;> cases failed
  rfl

theorem atomic_replace (node : NodeId) (i : Instruction) : (replace node i).Atomic := by
  intro d fault d' failed
  unfold replace at failed
  split at failed <;> cases failed
  rfl

theorem atomic_addHandler (h : Handler) : (addHandler h).Atomic := by
  intro d fault d' failed
  unfold addHandler at failed
  split at failed <;> cases failed
  rfl

/-- An edit that cannot fail. -/
theorem atomic_of_ok {α : Type} (f : Draft → α × Draft) :
    Edit.Atomic (fun d => (.ok (f d).1, (f d).2) : Edit α) := by
  intro d fault d' failed
  cases failed

end Atomic

/-! Edits of a draft and of a plain list. -/

/-- Edits of a draft, with all they are given. -/
inductive Change where
  | createLabel
  | placeLabel (label : Label)
  | placeLabelAfter (anchor : NodeId) (label : Label)
  | push (i : Instruction)
  | insertAfter (anchor : NodeId) (i : Instruction)
  | remove (node : NodeId)
  | replace (node : NodeId) (i : Instruction)
  | createLocal (name : Option String) (type : FieldType) (slot : Option UInt16)
  | addHandler (h : Handler)
  | markLine (line : UInt16)

namespace Change

/-- Makes the change; what it answers beside success is left out. -/
def apply : Change → Edit Unit
  | .createLabel => fun d => (.ok (), d.createLabel.2)
  | .placeLabel label => Draft.placeLabel label
  | .placeLabelAfter anchor label => Draft.placeLabelAfter anchor label
  | .push i => discard (Draft.push i)
  | .insertAfter anchor i => discard (Draft.insertAfter anchor i)
  | .remove node => discard (Draft.remove node)
  | .replace node i => discard (Draft.replace node i)
  | .createLocal name type slot => fun d => (.ok (), (d.createLocal name type slot).2)
  | .addHandler h => Draft.addHandler h
  | .markLine line => fun d => (.ok (), d.markLine line)

end Change

/-- Draft after changes, some of which may have failed. -/
def edited (d : Draft) (changes : List Change) : Draft :=
  changes.foldl (fun d change => (change.apply d).2) d

/-- Puts a list in the place of the first item with this number. -/
def substitute? (n : NodeId) (f : NodeId × Instruction → List (NodeId × Instruction)) :
    List (NodeId × Instruction) → Option (List (NodeId × Instruction))
  | [] => none
  | x :: xs => if x.1 = n then some (f x ++ xs) else (substitute? n f xs).map (x :: ·)

/-- What a change does to a plain list of nodes with their instructions, where `fresh` is the number
of the next new node. There is no result if the list does not have the node in question. -/
def Change.onList? (fresh : NodeId) : Change → List (NodeId × Instruction) →
    Option (List (NodeId × Instruction))
  | .createLabel, xs | .createLocal _ _ _, xs | .addHandler _, xs => some xs
  | .placeLabel label, xs => some (xs ++ [(label.node, .label)])
  | .placeLabelAfter anchor label, xs =>
    substitute? anchor (fun x => [x, (label.node, .label)]) xs
  | .push i, xs => some (xs ++ [(fresh, i)])
  | .insertAfter anchor i, xs => substitute? anchor (fun x => [x, (fresh, i)]) xs
  | .remove node, xs => substitute? node (fun _ => []) xs
  | .replace node i, xs => substitute? node (fun _ => [(node, i)]) xs
  | .markLine _, xs => some (xs ++ [(fresh, .label)])

/-- What a change does to the links, where `fresh` is the number of the next new node. -/
def Change.onLinks (fresh : NodeId) : Change → Links → Links
  | .createLabel, l | .createLocal _ _ _, l | .addHandler _, l | .replace _ _, l => l
  | .placeLabel label, l => l.linkAfter l.last label.node
  | .placeLabelAfter anchor label, l => l.linkAfter (some anchor) label.node
  | .push _, l | .markLine _, l => l.linkAfter l.last fresh
  | .insertAfter anchor _, l => l.linkAfter (some anchor) fresh
  | .remove node, l => l.unlink node

/-- Links that are kept beside a draft while it is edited: a change that succeeds relinks its place,
and one that fails leaves them. -/
def relinked (d : Draft) (l : Links) : List Change → Links
  | [] => l
  | change :: changes =>
    match change.apply d with
    | (.ok (), d') => d'.relinked (change.onLinks d.nodes.size l) changes
    | (.error _, d') => d'.relinked l changes

section Lists

variable {d d' : Draft}

theorem substitute?_append {front back : List (NodeId × Instruction)} {x : NodeId × Instruction}
    (f : NodeId × Instruction → List (NodeId × Instruction)) (absent : ∀ y ∈ front, y.1 ≠ x.1) :
    substitute? x.1 f (front ++ x :: back) = some (front ++ f x ++ back) := by
  induction front with
  | nil => exact if_pos rfl
  | cons y front ih =>
      rw [List.forall_mem_cons] at absent
      rw [List.cons_append, substitute?, if_neg absent.1, ih absent.2]
      rfl

/-- The nodes of a draft around one of them. -/
theorem toList_split {before after : List NodeId} {n : NodeId}
    (split : d.order.toList = before ++ n :: after) :
    d.toList = before.map (fun m => (m, d.instructionAt m)) ++
      (n, d.instructionAt n) :: after.map fun m => (m, d.instructionAt m) := by
  rw [toList, split, List.map_append, List.map_cons]

theorem Valid.substitute? (valid : d.Valid) {before after : List NodeId} {n : NodeId}
    (split : d.order.toList = before ++ n :: after)
    (f : NodeId × Instruction → List (NodeId × Instruction)) :
    substitute? n f d.toList = some (before.map (fun m => (m, d.instructionAt m)) ++
      f (n, d.instructionAt n) ++ after.map fun m => (m, d.instructionAt m)) := by
  rw [toList_split split]
  refine substitute?_append (x := (n, d.instructionAt n)) f ?_
  intro y member same
  obtain ⟨m, within, rfl⟩ := List.mem_map.mp member
  have nodup := valid.nodup
  rw [split, List.nodup_middle, List.nodup_cons] at nodup
  have equal : m = n := same
  exact nodup.1 (List.mem_append_left _ (equal ▸ within))

/-- A draft lists nodes with the instructions that another one has for them. -/
theorem map_instructionAt {nodes : List NodeId}
    (same : ∀ n ∈ nodes, d'.instructionAt n = d.instructionAt n) :
    nodes.map (fun n => (n, d'.instructionAt n)) = nodes.map fun n => (n, d.instructionAt n) :=
  List.map_congr_left fun n member => congrArg (Prod.mk n) (same n member)

theorem toList_placeLast (node : NodeId) :
    (d.placeLast node).toList = d.toList ++ [(node, d.instructionAt node)] := by
  have same : ∀ n, (d.placeLast node).instructionAt n = d.instructionAt n :=
    d.instructionAt_rearrange node true (d.order.push node)
  rw [toList, map_instructionAt fun n _ => same n]
  change ((d.order.push node).toList).map _ = _
  rw [Array.toList_push, List.map_append]
  rfl

/-- The nodes around an anchor, and those with one more behind it. -/
theorem Valid.split_placeAfter (valid : d.Valid) {anchor : NodeId} (node : NodeId)
    (placed : d.isPlacedNode anchor = true) :
    ∃ before after, d.order.toList = before ++ anchor :: after ∧
      (d.placeAfter anchor node).order.toList = before ++ anchor :: node :: after := by
  obtain ⟨before, after, split, absent⟩ :=
    List.eq_append_cons_of_mem ((valid.placed anchor).mpr placed)
  refine ⟨before, after, split, ?_⟩
  rw [placeAfter_eq split absent]

theorem Valid.toList_placeAfter (valid : d.Valid) {anchor : NodeId} (node : NodeId)
    (placed : d.isPlacedNode anchor = true) :
    Draft.substitute? anchor (fun x => [x, (node, d.instructionAt node)]) d.toList =
      some (d.placeAfter anchor node).toList := by
  obtain ⟨before, after, split, order⟩ := valid.split_placeAfter node placed
  rw [valid.substitute? split, toList, order,
    map_instructionAt fun n _ => d.instructionAt_placeAfter anchor node n]
  simp

theorem Valid.toList_allocate (valid : d.Valid) (i : Instruction) :
    (d.allocate i).toList = d.toList := by
  refine map_instructionAt fun n member => d.instructionAt_allocate i ?_
  exact Nat.ne_of_lt (valid.inside member)

/-- The nodes around one that is placed, and those that are left without it. -/
theorem Valid.split_erase (valid : d.Valid) {node : NodeId} (placed : d.isPlacedNode node = true) :
    ∃ before after, d.order.toList = before ++ node :: after ∧
      (d.order.erase node).toList = before ++ after := by
  obtain ⟨before, after, split, absent⟩ :=
    List.eq_append_cons_of_mem ((valid.placed node).mpr placed)
  refine ⟨before, after, split, ?_⟩
  rw [Array.toList_erase, split, List.erase_append_right _ absent, List.erase_cons_head]

theorem Valid.toList_unplace (valid : d.Valid) {node : NodeId}
    (placed : d.isPlacedNode node = true) :
    Draft.substitute? node (fun _ => []) d.toList =
      some { d.markPlaced node false with order := d.order.erase node }.toList := by
  obtain ⟨before, after, split, order⟩ := valid.split_erase placed
  rw [valid.substitute? split, toList]
  change _ = some ((d.order.erase node).toList.map _)
  rw [order, map_instructionAt fun n _ => d.instructionAt_rearrange node false _ n]
  simp

theorem Valid.toList_setInstruction (valid : d.Valid) {node : NodeId} (i : Instruction)
    (placed : d.isPlacedNode node = true) :
    Draft.substitute? node (fun _ => [(node, i)]) d.toList =
      some (d.setInstruction node i).toList := by
  have member := (valid.placed node).mpr placed
  obtain ⟨before, after, split⟩ := List.append_of_mem member
  have nodup := valid.nodup
  rw [split, List.nodup_middle, List.nodup_cons, List.mem_append, not_or] at nodup
  have others : ∀ nodes : List NodeId, node ∉ nodes → ∀ n ∈ nodes,
      (d.setInstruction node i).instructionAt n = d.instructionAt n := by
    intro nodes absent n within
    exact d.instructionAt_setInstruction_ne i fun same => absent (same ▸ within)
  rw [valid.substitute? split, toList_split (d := d.setInstruction node i) split,
    map_instructionAt (others before nodup.1.1), map_instructionAt (others after nodup.1.2),
    d.instructionAt_setInstruction i (valid.inside member)]
  simp

theorem instructionAt_of_owns {label : Label} (own : d.OwnsLabel label) :
    d.instructionAt label.node = .label := by
  obtain ⟨-, placed, found⟩ := own
  exact instructionAt_of_getElem? found

theorem checkRemovable_eq_ok {node : NodeId} :
    d.checkRemovable node = .ok () ↔ d.isPlacedNode node = true ∧
      ((d.instructionAt node).isLabel = true → d.isReferenced ⟨d.id, node⟩ = false) := by
  unfold checkRemovable
  cases linked : d.checkPlaced node with
  | error fault =>
      have loose : ¬ d.isPlacedNode node = true := by
        rw [← checkPlaced_eq_ok, linked]
        simp
      simp [loose]
  | ok u =>
      have placed := checkPlaced_eq_ok.mp linked
      cases (d.instructionAt node).isLabel <;> cases d.isReferenced ⟨d.id, node⟩ <;> simp [placed]

theorem checkReplacement_eq_ok {node : NodeId} {i : Instruction} :
    d.checkReplacement node i = .ok () ↔ d.isPlacedNode node = true ∧
      (d.instructionAt node).isLabel = false ∧ i.isLabel = false ∧ d.Owns i := by
  unfold checkReplacement
  cases linked : d.checkPlaced node with
  | error fault =>
      have loose : ¬ d.isPlacedNode node = true := by
        rw [← checkPlaced_eq_ok, linked]
        simp
      simp [loose]
  | ok u =>
      have placed := checkPlaced_eq_ok.mp linked
      rw [← checkInstruction_eq_ok]
      cases (d.instructionAt node).isLabel <;> cases i.isLabel <;> simp [placed]

/-- What a change that succeeds has found and what it does. -/
inductive Undergoes (d : Draft) : Change → Draft → Prop
  | createLabel : Undergoes d .createLabel d.createLabel.2
  | placeLabel {label : Label} (own : d.OwnsLabel label)
      (free : d.isPlacedNode label.node = false) :
      Undergoes d (.placeLabel label) (d.placeLast label.node)
  | placeLabelAfter {anchor : NodeId} {label : Label} (linked : d.isPlacedNode anchor = true)
      (own : d.OwnsLabel label) (free : d.isPlacedNode label.node = false) :
      Undergoes d (.placeLabelAfter anchor label) (d.placeAfter anchor label.node)
  | push {i : Instruction} (own : d.Owns i) :
      Undergoes d (.push i) ((d.allocate i).placeLast d.nodes.size)
  | insertAfter {anchor : NodeId} {i : Instruction} (linked : d.isPlacedNode anchor = true)
      (own : d.Owns i) :
      Undergoes d (.insertAfter anchor i) ((d.allocate i).placeAfter anchor d.nodes.size)
  | remove {node : NodeId} (linked : d.isPlacedNode node = true)
      (unused : (d.instructionAt node).isLabel = true → d.isReferenced ⟨d.id, node⟩ = false) :
      Undergoes d (.remove node) { d.markPlaced node false with order := d.order.erase node }
  | replace {node : NodeId} {i : Instruction} (linked : d.isPlacedNode node = true)
      (old : (d.instructionAt node).isLabel = false) (own : d.Owns i) :
      Undergoes d (.replace node i) (d.setInstruction node i)
  | createLocal (name : Option String) (type : FieldType) (slot : Option UInt16) :
      Undergoes d (.createLocal name type slot) (d.createLocal name type slot).2
  | addHandler {h : Handler} (own : d.OwnsHandler h) :
      Undergoes d (.addHandler h) { d with handlers := d.handlers.push h }
  | markLine (line : UInt16) : Undergoes d (.markLine line) (d.markLine line)

theorem undergoes_of_apply {change : Change} (done : change.apply d = (.ok (), d')) :
    d.Undergoes change d' := by
  cases change with
  | createLabel =>
      cases done
      exact .createLabel
  | placeLabel label =>
      rw [Change.apply, placeLabel] at done
      cases check : d.checkPlaceable label with
      | error fault => rw [check] at done; cases done
      | ok u =>
          rw [check] at done
          cases done
          obtain ⟨own, free⟩ := checkPlaceable_eq_ok.mp check
          exact .placeLabel own free
  | placeLabelAfter anchor label =>
      rw [Change.apply, placeLabelAfter] at done
      cases linked : d.checkPlaced anchor with
      | error fault => rw [linked] at done; cases done
      | ok u =>
          cases check : d.checkPlaceable label with
          | error fault => simp only [linked, check] at done; cases done
          | ok u =>
              simp only [linked, check] at done
              cases done
              obtain ⟨own, free⟩ := checkPlaceable_eq_ok.mp check
              exact .placeLabelAfter (checkPlaced_eq_ok.mp linked) own free
  | push i =>
      rw [Change.apply, run_discard, push] at done
      cases check : d.checkInstruction i with
      | error fault => rw [check] at done; cases done
      | ok u =>
          rw [check] at done
          cases done
          exact .push (checkInstruction_eq_ok.mp check)
  | insertAfter anchor i =>
      rw [Change.apply, run_discard, insertAfter] at done
      cases linked : d.checkPlaced anchor with
      | error fault => rw [linked] at done; cases done
      | ok u =>
          cases check : d.checkInstruction i with
          | error fault => simp only [linked, check] at done; cases done
          | ok u =>
              simp only [linked, check] at done
              cases done
              exact .insertAfter (checkPlaced_eq_ok.mp linked) (checkInstruction_eq_ok.mp check)
  | remove node =>
      rw [Change.apply, run_discard, remove] at done
      cases check : d.checkRemovable node with
      | error fault => rw [check] at done; cases done
      | ok u =>
          rw [check] at done
          cases done
          obtain ⟨linked, unused⟩ := checkRemovable_eq_ok.mp check
          exact .remove linked unused
  | replace node i =>
      rw [Change.apply, run_discard, replace] at done
      cases check : d.checkReplacement node i with
      | error fault => rw [check] at done; cases done
      | ok u =>
          rw [check] at done
          cases done
          obtain ⟨linked, old, -, own⟩ := checkReplacement_eq_ok.mp check
          exact .replace linked old own
  | createLocal name type slot =>
      cases done
      exact .createLocal name type slot
  | addHandler h =>
      rw [Change.apply, addHandler] at done
      cases check : d.checkHandler h with
      | error fault => rw [check] at done; cases done
      | ok u =>
          rw [check] at done
          cases done
          exact .addHandler (checkHandler_eq_ok.mp check)
  | markLine line =>
      cases done
      exact .markLine line

/-- A change that succeeds does to the draft what it does to a list. -/
theorem Valid.toList_apply (valid : d.Valid) {change : Change}
    (done : change.apply d = (.ok (), d')) :
    change.onList? d.nodes.size d.toList = some d'.toList := by
  have fresh : ∀ i, (d.allocate i).instructionAt d.nodes.size = i := d.instructionAt_allocate_size
  cases undergoes_of_apply done with
  | createLabel => exact congrArg some (valid.toList_allocate .label).symm
  | placeLabel own free =>
      rw [toList_placeLast, instructionAt_of_owns own]
      rfl
  | @placeLabelAfter anchor label linked own free =>
      rw [← valid.toList_placeAfter label.node linked, instructionAt_of_owns own]
      rfl
  | push own =>
      rw [toList_placeLast, valid.toList_allocate, fresh]
      rfl
  | @insertAfter anchor i linked own =>
      have placed : (d.allocate i).isPlacedNode anchor = true := by
        rw [isPlacedNode_allocate]
        exact linked
      rw [← (valid.allocate own).toList_placeAfter d.nodes.size placed, valid.toList_allocate,
        fresh]
      rfl
  | remove linked unused => exact valid.toList_unplace linked
  | @replace node i linked old own => exact valid.toList_setInstruction i linked
  | createLocal name type slot => rfl
  | addHandler own => rfl
  | markLine line =>
      change _ = some (((d.allocate .label).placeLast d.nodes.size).toList)
      rw [toList_placeLast, valid.toList_allocate, fresh]
      rfl

end Lists

section Runs

variable {d d' : Draft}

theorem Change.atomic_apply (change : Change) : change.apply.Atomic := by
  cases change with
  | createLabel => exact atomic_of_ok fun d => ((), d.createLabel.2)
  | placeLabel label => exact atomic_placeLabel label
  | placeLabelAfter anchor label => exact atomic_placeLabelAfter anchor label
  | push i => exact (atomic_push i).discard
  | insertAfter anchor i => exact (atomic_insertAfter anchor i).discard
  | remove node => exact (atomic_remove node).discard
  | replace node i => exact (atomic_replace node i).discard
  | createLocal name type slot => exact atomic_of_ok fun d => ((), (d.createLocal name type slot).2)
  | addHandler h => exact atomic_addHandler h
  | markLine line => exact atomic_of_ok fun d => ((), d.markLine line)

theorem Valid.apply (valid : d.Valid) (change : Change) : (change.apply d).2.Valid := by
  cases change with
  | createLabel => exact valid.createLabel
  | placeLabel label => exact valid_placeLabel valid label
  | placeLabelAfter anchor label => exact valid_placeLabelAfter valid anchor label
  | push i =>
      rw [Change.apply, run_discard]
      exact valid_push valid i
  | insertAfter anchor i =>
      rw [Change.apply, run_discard]
      exact valid_insertAfter valid anchor i
  | remove node =>
      rw [Change.apply, run_discard]
      exact valid_remove valid node
  | replace node i =>
      rw [Change.apply, run_discard]
      exact valid_replace valid node i
  | createLocal name type slot => exact valid.createLocal name type slot
  | addHandler h => exact valid_addHandler valid h
  | markLine line => exact valid.markLine line

theorem links_placeLast {node : NodeId} (nodup : (d.placeLast node).order.toList.Nodup) :
    (d.placeLast node).links = d.links.linkAfter d.last? node := by
  have whole : (d.placeLast node).order.toList = d.order.toList ++ [node] := Array.toList_push
  rw [last?_eq]
  exact links_insert nodup (List.append_nil _).symm whole

theorem Valid.links_placeAfter (valid : d.Valid) {anchor node : NodeId}
    (placed : d.isPlacedNode anchor = true)
    (nodup : (d.placeAfter anchor node).order.toList.Nodup) :
    (d.placeAfter anchor node).links = d.links.linkAfter (some anchor) node := by
  obtain ⟨before, after, split, order⟩ := valid.split_placeAfter node placed
  rw [List.append_cons] at split order
  rw [links_insert nodup split order, List.getLast?_concat]

/-- A change that succeeds relinks the edited place only. -/
theorem Valid.links_apply (valid : d.Valid) {change : Change}
    (done : change.apply d = (.ok (), d')) : d'.links = change.onLinks d.nodes.size d.links := by
  have nodup : d'.order.toList.Nodup := by
    have later := (valid.apply change).nodup
    rw [done] at later
    exact later
  cases undergoes_of_apply done with
  | createLabel => rfl
  | placeLabel own free => exact links_placeLast nodup
  | placeLabelAfter linked own free => exact valid.links_placeAfter linked nodup
  | push own => exact links_placeLast nodup
  | @insertAfter anchor i linked own =>
      have placed : (d.allocate i).isPlacedNode anchor = true := by
        rw [isPlacedNode_allocate]
        exact linked
      exact (valid.allocate own).links_placeAfter placed nodup
  | remove linked unused =>
      obtain ⟨before, after, split, order⟩ := valid.split_erase linked
      exact links_erase valid.nodup order split
  | replace linked old own => rfl
  | createLocal name type slot => rfl
  | addHandler own => rfl
  | markLine line => exact links_placeLast nodup

theorem Valid.edited (valid : d.Valid) (changes : List Change) : (d.edited changes).Valid := by
  induction changes generalizing d with
  | nil => exact valid
  | cons change changes ih => exact ih (valid.apply change)

/-- Links that are only ever changed at the edited place stay those of the draft. -/
theorem Valid.links_edited (valid : d.Valid) (changes : List Change) :
    (d.edited changes).links = d.relinked d.links changes := by
  induction changes generalizing d with
  | nil => rfl
  | cons change changes ih =>
      have later : ((change.apply d).2.edited changes).links =
          (change.apply d).2.relinked (change.apply d).2.links changes := ih (valid.apply change)
      change ((change.apply d).2.edited changes).links = _
      rw [later, relinked]
      cases ran : change.apply d with
      | mk result after =>
          cases result with
          | ok u => rw [valid.links_apply ran]
          | error fault => rw [change.atomic_apply d fault after ran]

end Runs

/-- After any changes to an empty draft, with links that are changed at the edited places only: the
links lead through the placed nodes, which are those of the draft; operands belong to the draft;
and one more change does what it does to a list and to the links, or fails and does nothing. -/
theorem edited_refines (id : Nat) (changes : List Change) {d : Draft} {l : Links}
    (reached : (empty id).edited changes = d) (linked : (empty id).relinked .empty changes = l) :
    (l.LeadThrough (d.toList.map Prod.fst) ∧ d.links = l ∧
      ∀ n, n ∈ d.toList.map Prod.fst ↔ d.isPlacedNode n = true) ∧
    ((∀ x ∈ d.toList, d.Owns x.2) ∧ (∀ h ∈ d.handlers, d.OwnsHandler h) ∧
      ∀ line ∈ d.lines, d.OwnsLabel line.1) ∧
    ∀ (change : Change) (d' : Draft),
      (change.apply d = (.ok (), d') →
        change.onList? d.nodes.size d.toList = some d'.toList ∧
        d'.links = change.onLinks d.nodes.size l) ∧
      ∀ fault, change.apply d = (.error fault, d') → d' = d := by
  have valid : d.Valid := reached ▸ (valid_empty id).edited changes
  have nodes : d.toList.map Prod.fst = d.order.toList := by
    rw [toList, List.map_map]
    exact List.map_id _
  have same : d.links = l := by
    rw [← reached, ← linked, (valid_empty id).links_edited, links_empty]
  rw [nodes, ← same]
  refine ⟨⟨leadThrough_links valid.nodup, rfl, valid.placed⟩, ⟨?_, valid.handlers, valid.lines⟩, ?_⟩
  · intro x member
    obtain ⟨n, -, rfl⟩ := List.mem_map.mp member
    exact valid.owns n
  · intro change d'
    exact ⟨fun done => ⟨valid.toList_apply done, valid.links_apply done⟩,
      fun fault => change.atomic_apply d fault d'⟩

/-- A loop that was edited after it was built. The second place for the label is refused. -/
def loop : List Change :=
  [.createLabel, .placeLabel ⟨0, 0⟩, .push (.simple Opcode.nop), .push (.branch Opcode.goto ⟨0, 0⟩),
    .insertAfter 1 (.simple Opcode.iconst_0), .placeLabel ⟨0, 0⟩,
    .insertAfter 3 (.simple Opcode.pop), .remove 1]

theorem edited_refines_loop : ∃ d l, (empty 0).edited loop = d ∧
    (empty 0).relinked .empty loop = l ∧
    d.toList = [(0, .label), (3, .simple Opcode.iconst_0), (4, .simple Opcode.pop),
      (2, .branch Opcode.goto ⟨0, 0⟩)] ∧
    l.Walk l.first [0, 3, 4, 2] ∧ l.previous 2 = some 4 ∧ l.next 1 = none ∧
    ∀ fault d', (Change.remove 0).apply d = (.error fault, d') → d' = d := by
  have nodes : ((empty 0).edited loop).toList = [(0, .label), (3, .simple Opcode.iconst_0),
      (4, .simple Opcode.pop), (2, .branch Opcode.goto ⟨0, 0⟩)] := by decide +kernel
  have back : ((empty 0).relinked .empty loop).previous 2 = some 4 := by decide +kernel
  obtain ⟨⟨leads, -, -⟩, -, changes⟩ := edited_refines 0 loop rfl rfl
  rw [nodes] at leads
  exact ⟨_, _, rfl, rfl, nodes, leads.walk, back, (leads.loose 1 (by decide)).1,
    fun fault d' => (changes (.remove 0) d').2 fault⟩

end Draft

end JvmAssembly
