import Mathlib
import JvmAssembly.Proofs.Draft.ControlFlow

/-!
Links of a draft. Each placed node knows its neighbours, and the draft knows its first and its last
node. Following the links forward visits the placed nodes in order, and the links back undo them.

A node that comes in or goes out changes the links of its neighbours only, and the ends of the draft
if it has no neighbour there.
-/
namespace JvmAssembly

/-- Both ends of a sequence, and the neighbours of every node. -/
@[ext]
structure Links where
  first : Option NodeId
  last : Option NodeId
  next : NodeId → Option NodeId
  previous : NodeId → Option NodeId
  length : Nat

namespace Links

/-- There is no node yet. -/
def empty : Links := ⟨none, none, fun _ => none, fun _ => none, 0⟩

/-- The node behind another one; without one, the first of all. -/
def behind (l : Links) : Option NodeId → Option NodeId
  | some anchor => l.next anchor
  | none => l.first

/-- Links in a node behind an anchor, or at the front if there is no anchor. -/
def linkAfter (l : Links) (anchor : Option NodeId) (node : NodeId) : Links where
  first := if anchor = none then some node else l.first
  last := if l.behind anchor = none then some node else l.last
  next n := if n = node then l.behind anchor else if anchor = some n then some node else l.next n
  previous n :=
    if n = node then anchor else if l.behind anchor = some n then some node else l.previous n
  length := l.length + 1

/-- Takes a node out and links its neighbours to each other. -/
def unlink (l : Links) (node : NodeId) : Links where
  first := if l.previous node = none then l.next node else l.first
  last := if l.next node = none then l.previous node else l.last
  next n := if n = node then none else if l.previous node = some n then l.next node else l.next n
  previous n :=
    if n = node then none else if l.next node = some n then l.previous node else l.previous n
  length := l.length - 1

/-- Following the links from a node visits these nodes and ends behind the last of them. -/
inductive Walk (l : Links) : Option NodeId → List NodeId → Prop
  | stop : Walk l none []
  | visit {n : NodeId} {rest : List NodeId} (later : Walk l (l.next n) rest) :
      Walk l (some n) (n :: rest)

/-- The links lead through these nodes, once each, from the first to the last and back. No other
node has links. -/
structure LeadThrough (l : Links) (nodes : List NodeId) : Prop where
  walk : l.Walk l.first nodes
  last : l.last = nodes.getLast?
  nodup : nodes.Nodup
  length : l.length = nodes.length
  inverse (n m : NodeId) : l.next n = some m ↔ l.previous m = some n
  loose (n : NodeId) (absent : n ∉ nodes) : l.next n = none ∧ l.previous n = none

end Links

namespace Draft

def links (d : Draft) : Links := ⟨d.first?, d.last?, d.next?, d.previous?, d.length⟩

variable {d d' : Draft} {before after : List NodeId} {n m node : NodeId}

theorem first?_eq (d : Draft) : d.first? = d.order.toList.head? := by
  rw [first?, ← Array.getElem?_toList, List.head?_eq_getElem?]

theorem last?_eq (d : Draft) : d.last? = d.order.toList.getLast? := by
  rw [last?, Array.back?_eq_getElem?, ← Array.getElem?_toList, List.getLast?_eq_getElem?]
  rfl

theorem walk_of_split (nodup : d.order.toList.Nodup) (split : d.order.toList = before ++ after) :
    d.links.Walk after.head? after := by
  induction after generalizing before with
  | nil => exact .stop
  | cons n after ih =>
      refine .visit ?_
      change d.links.Walk (d.next? n) after
      rw [next?_eq nodup split]
      have later : d.order.toList = (before ++ [n]) ++ after := by
        rw [split, List.append_assoc]
        rfl
      exact ih later

theorem previous?_eq (nodup : d.order.toList.Nodup)
    (split : d.order.toList = before ++ n :: after) : d.previous? n = before.getLast? := by
  have absent : n ∉ before := by
    rw [split, List.nodup_middle, List.nodup_cons] at nodup
    exact fun member => nodup.1 (List.mem_append_left _ member)
  have index : d.order.idxOf? n = some before.length := by
    rw [idxOf?_order, split]
    exact idxOf?_append absent
  rw [previous?, index]
  cases before using List.reverseRecOn with
  | nil => rfl
  | append_singleton front m =>
      rw [List.length_append, List.length_singleton, List.getLast?_append, List.getLast?_singleton]
      change d.order[front.length]? = some m
      rw [← Array.getElem?_toList, split]
      simp

theorem previous?_of_not_mem (absent : n ∉ d.order.toList) : d.previous? n = none := by
  have index : d.order.idxOf? n = none := by
    rw [idxOf?_order, List.idxOf?_eq_none_iff]
    exact absent
  rw [previous?, index]

theorem links_empty (id : Nat) : (empty id).links = .empty := by
  refine Links.ext rfl rfl ?_ ?_ rfl
  · exact funext fun n => next?_of_not_mem List.not_mem_nil
  · exact funext fun n => previous?_of_not_mem List.not_mem_nil

theorem mem_of_link (nodup : d.order.toList.Nodup)
    (linked : d.next? n = some m ∨ d.previous? m = some n) :
    ∃ before after, d.order.toList = before ++ n :: m :: after := by
  rcases linked with next | previous
  · have member : n ∈ d.order.toList := by
      by_contra absent
      rw [next?_of_not_mem absent] at next
      cases next
    obtain ⟨before, after, split⟩ := List.append_of_mem member
    rw [next?_eq nodup split, List.head?_eq_some_iff] at next
    obtain ⟨rest, rfl⟩ := next
    exact ⟨before, rest, split⟩
  · have member : m ∈ d.order.toList := by
      by_contra absent
      rw [previous?_of_not_mem absent] at previous
      cases previous
    obtain ⟨before, after, split⟩ := List.append_of_mem member
    rw [previous?_eq nodup split, List.getLast?_eq_some_iff] at previous
    obtain ⟨front, rfl⟩ := previous
    exact ⟨front, after, by rw [split, List.append_assoc]; rfl⟩

/-- The links back undo the links forward. -/
theorem next?_iff_previous? (nodup : d.order.toList.Nodup) :
    d.next? n = some m ↔ d.previous? m = some n := by
  have both : ∀ {before after : List NodeId}, d.order.toList = before ++ n :: m :: after →
      d.next? n = some m ∧ d.previous? m = some n := by
    intro before after split
    have split' : d.order.toList = (before ++ [n]) ++ m :: after := by
      rw [split, List.append_assoc]
      rfl
    refine ⟨next?_eq nodup split, (previous?_eq nodup split').trans ?_⟩
    rw [List.getLast?_append, List.getLast?_singleton]
    rfl
  constructor
  · intro next
    obtain ⟨_, _, split⟩ := mem_of_link nodup (.inl next)
    exact (both split).2
  · intro previous
    obtain ⟨_, _, split⟩ := mem_of_link nodup (.inr previous)
    exact (both split).1

theorem leadThrough_links (nodup : d.order.toList.Nodup) :
    d.links.LeadThrough d.order.toList where
  walk := by
    change d.links.Walk d.first? _
    rw [first?_eq]
    exact walk_of_split nodup (List.nil_append _).symm
  last := last?_eq d
  nodup := nodup
  length := Array.length_toList.symm
  inverse _ _ := next?_iff_previous? nodup
  loose _ absent := ⟨next?_of_not_mem absent, previous?_of_not_mem absent⟩

/-! One node more, between two stretches of the sequence. -/

section Insert

theorem not_mem_of_insert (nodup : (before ++ node :: after).Nodup) :
    (before ++ after).Nodup ∧ node ∉ before ∧ node ∉ after := by
  rw [List.nodup_middle, List.nodup_cons, List.mem_append, not_or] at nodup
  exact ⟨nodup.2, nodup.1⟩

variable (nodup : d'.order.toList.Nodup) (without : d.order.toList = before ++ after)
  (whole : d'.order.toList = before ++ node :: after)
include nodup without whole

theorem nodup_of_insert : d.order.toList.Nodup := by
  rw [whole] at nodup
  rw [without]
  exact (not_mem_of_insert nodup).1

theorem not_mem_order_of_insert : node ∉ d.order.toList := by
  rw [whole] at nodup
  rw [without, List.mem_append, not_or]
  exact (not_mem_of_insert nodup).2

/-- The first stretch ends with the node before, and the second begins with the node behind. -/
theorem behind_links : d.links.behind before.getLast? = after.head? := by
  have fewer := nodup_of_insert nodup without whole
  cases before using List.reverseRecOn with
  | nil =>
      change d.first? = _
      rw [first?_eq, without]
      rfl
  | append_singleton front anchor =>
      rw [List.getLast?_append, List.getLast?_singleton]
      change d.next? anchor = _
      exact next?_eq fewer (by rw [without, List.append_assoc]; rfl)

theorem next?_insert {n : NodeId} (other : n ≠ node) : d'.next? n =
    if before.getLast? = some n then some node else d.next? n := by
  have fewer := nodup_of_insert nodup without whole
  by_cases early : n ∈ before
  · obtain ⟨front, back, rfl⟩ := List.append_of_mem early
    rw [List.append_assoc, List.cons_append] at without whole
    rw [next?_eq nodup whole, next?_eq fewer without]
    cases back with
    | nil => simp
    | cons b back =>
        have last : (front ++ n :: b :: back).getLast? ≠ some n := by
          intro last
          rw [List.getLast?_append, List.getLast?_cons_cons, Option.or_of_isSome (by simp)] at last
          rw [without, List.nodup_append, List.nodup_cons] at fewer
          exact fewer.2.1.1 (List.mem_append_left _ (List.mem_of_getLast? last))
        rw [if_neg last]
        rfl
  · rw [if_neg fun last => early (List.mem_of_getLast? last)]
    by_cases late : n ∈ after
    · obtain ⟨front, back, rfl⟩ := List.append_of_mem late
      rw [← List.append_assoc] at without
      rw [← List.cons_append, ← List.append_assoc] at whole
      rw [next?_eq nodup whole, next?_eq fewer without]
    · rw [next?_of_not_mem (by simp [whole, early, late, other]),
        next?_of_not_mem (by simp [without, early, late])]

theorem previous?_insert {n : NodeId} (other : n ≠ node) : d'.previous? n =
    if after.head? = some n then some node else d.previous? n := by
  have fewer := nodup_of_insert nodup without whole
  by_cases late : n ∈ after
  · obtain ⟨front, back, rfl⟩ := List.append_of_mem late
    rw [← List.append_assoc] at without
    rw [← List.cons_append, ← List.append_assoc] at whole
    rw [previous?_eq nodup whole, previous?_eq fewer without]
    cases front with
    | nil => simp
    | cons f front =>
        have first : (f :: front ++ n :: back).head? ≠ some n := by
          rintro first
          cases first
          rw [without, List.nodup_middle, List.nodup_cons] at fewer
          exact fewer.1 (by simp)
        rw [if_neg first]
        simp [List.getLast?_append]
  · rw [if_neg fun first => late (List.mem_of_head? first)]
    by_cases early : n ∈ before
    · obtain ⟨front, back, rfl⟩ := List.append_of_mem early
      rw [List.append_assoc, List.cons_append] at without whole
      rw [previous?_eq nodup whole, previous?_eq fewer without]
    · rw [previous?_of_not_mem (by simp [whole, early, late, other]),
        previous?_of_not_mem (by simp [without, early, late])]

/-- A node that comes in is linked to its neighbours. -/
theorem links_insert : d'.links = d.links.linkAfter before.getLast? node := by
  have behind := behind_links nodup without whole
  ext1
  · change d'.first? = if before.getLast? = none then some node else d.first?
    rw [first?_eq, first?_eq, whole, without]
    cases before <;> simp
  · change d'.last? = if d.links.behind _ = none then some node else d.last?
    rw [behind, last?_eq, last?_eq, whole, without]
    cases after <;> simp [List.getLast?_append]
  · funext n
    change d'.next? n = if n = node then d.links.behind _ else
      if before.getLast? = some n then some node else d.next? n
    split
    · rename_i same
      rw [same, behind, next?_eq nodup whole]
    · exact next?_insert nodup without whole ‹_›
  · funext n
    change d'.previous? n = if n = node then before.getLast? else
      if d.links.behind _ = some n then some node else d.previous? n
    rw [behind]
    split
    · rename_i same
      rw [same, previous?_eq nodup whole]
    · exact previous?_insert nodup without whole ‹_›
  · change d'.order.size = d.order.size + 1
    rw [← Array.length_toList, ← Array.length_toList, whole, without]
    simp [Nat.add_assoc]

/-- A node that goes out leaves its neighbours linked to each other. -/
theorem links_erase : d.links = d'.links.unlink node := by
  have fewer := nodup_of_insert nodup without whole
  have absent := not_mem_order_of_insert nodup without whole
  have next : d'.links.next node = after.head? := next?_eq nodup whole
  have previous : d'.links.previous node = before.getLast? := previous?_eq nodup whole
  have behind := behind_links nodup without whole
  ext1
  · change d.first? = if d'.links.previous node = none then d'.links.next node else d'.first?
    rw [next, previous, first?_eq, first?_eq, whole, without]
    cases before <;> simp
  · change d.last? = if d'.links.next node = none then d'.links.previous node else d'.last?
    rw [next, previous, last?_eq, last?_eq, whole, without]
    cases after <;> simp [List.getLast?_append]
  · funext n
    change d.next? n = if n = node then none else
      if d'.links.previous node = some n then d'.links.next node else d'.next? n
    rw [next, previous]
    split
    · rename_i same
      rw [same, next?_of_not_mem absent]
    · rw [next?_insert nodup without whole ‹_›]
      split
      · rename_i last
        rw [← behind, last]
        rfl
      · rfl
  · funext n
    change d.previous? n = if n = node then none else
      if d'.links.next node = some n then d'.links.previous node else d'.previous? n
    rw [next, previous]
    split
    · rename_i same
      rw [same, previous?_of_not_mem absent]
    · rw [previous?_insert nodup without whole ‹_›]
      split
      · rename_i first
        obtain ⟨rest, rfl⟩ := List.head?_eq_some_iff.mp first
        exact previous?_eq fewer without
      · rfl
  · change d.order.size = d'.order.size - 1
    rw [← Array.length_toList, ← Array.length_toList, whole, without]
    simp

end Insert

end Draft

end JvmAssembly
