import Mathlib
import JvmAssembly.Draft.Slots
import JvmAssembly.Proofs.Draft.Validity

/-!
Marking dead stores decides for every placed store whether it is written, and touches nothing
else. Each node is marked once, by its own position.
-/
namespace JvmAssembly

/-- A store that is kept exactly if its local is live after the position. -/
def Instruction.marked (liveness : Liveness) (i : Nat) : Instruction → Instruction
  | .store target kind _ => .store target kind (!(liveness.exitOf target.index).contains i)
  | other => other

namespace Instruction

variable (liveness : Liveness) (i : Nat) (x : Instruction)

theorem targets_marked : (x.marked liveness i).targets = x.targets := by
  cases x <;> rfl

theorem uses_marked : (x.marked liveness i).uses = x.uses := by
  cases x <;> rfl

theorem defines_marked : (x.marked liveness i).defines = x.defines := by
  cases x <;> rfl

end Instruction

namespace Draft

variable {liveness : Liveness}

theorem markStore_getElem? (nodes : Array Node) (i : Nat) (node n : NodeId) :
    (markStore liveness nodes i node)[n]? =
      if node = n then
        (nodes[n]?).map fun x => { x with instruction := x.instruction.marked liveness i }
      else nodes[n]? := by
  rw [markStore, Array.getElem?_modify]
  congr 2
  funext x
  obtain ⟨instruction, placed⟩ := x
  cases instruction <;> rfl

/-- Nodes after marking the stores of a stretch of the sequence that begins at position `i`. -/
def markFrom (liveness : Liveness) (nodes : Array Node) (i : Nat) : List NodeId → Array Node
  | [] => nodes
  | node :: rest => markFrom liveness (markStore liveness nodes i node) (i + 1) rest

theorem markFrom_of_not_mem {rest : List NodeId} {n : NodeId} (absent : n ∉ rest)
    (nodes : Array Node) (i : Nat) : (markFrom liveness nodes i rest)[n]? = nodes[n]? := by
  induction rest generalizing nodes i with
  | nil => rfl
  | cons node rest ih =>
      rw [List.mem_cons, not_or] at absent
      rw [markFrom, ih absent.2, markStore_getElem?, if_neg (Ne.symm absent.1)]

theorem markFrom_of_getElem? {rest : List NodeId} (nodup : rest.Nodup) {k : Nat} {n : NodeId}
    (found : rest[k]? = some n) (nodes : Array Node) (i : Nat) :
    (markFrom liveness nodes i rest)[n]? =
      (nodes[n]?).map fun x => { x with instruction := x.instruction.marked liveness (i + k) } := by
  induction rest generalizing nodes i k with
  | nil => simp at found
  | cons node rest ih =>
      rw [List.nodup_cons] at nodup
      cases k with
      | zero =>
          rw [List.getElem?_cons_zero, Option.some.injEq] at found
          subst found
          rw [markFrom, markFrom_of_not_mem nodup.1, markStore_getElem?, if_pos rfl, Nat.add_zero]
      | succ k =>
          rw [List.getElem?_cons_succ] at found
          have other : node ≠ n := by
            rintro rfl
            exact nodup.1 (List.mem_of_getElem? found)
          rw [markFrom, ih nodup.2 found, markStore_getElem?, if_neg other, Nat.add_right_comm,
            Nat.add_assoc]

theorem foldl_markStore (rest : List NodeId) (nodes : Array Node) (i : Nat) :
    (rest.foldl (fun (s : Array Node × Nat) node => (markStore liveness s.1 s.2 node, s.2 + 1))
      (nodes, i)).1 = markFrom liveness nodes i rest := by
  induction rest generalizing nodes i with
  | nil => rfl
  | cons node rest ih => exact ih (markStore liveness nodes i node) (i + 1)

theorem markDeadStores_eq (liveness : Liveness) (d : Draft) :
    d.markDeadStores liveness =
      { d with nodes := markFrom liveness d.nodes 0 d.order.toList } := by
  rw [← foldl_markStore, Array.foldl_toList]
  rfl

variable (liveness)

/-- A node stays as it is, or has its store decided. -/
theorem markDeadStores_getElem? {d : Draft} (nodup : d.order.toList.Nodup) (n : NodeId) :
    (d.markDeadStores liveness).nodes[n]? = d.nodes[n]? ∨
      ∃ i, (d.markDeadStores liveness).nodes[n]? =
        (d.nodes[n]?).map fun x => { x with instruction := x.instruction.marked liveness i } := by
  rw [markDeadStores_eq]
  by_cases member : n ∈ d.order.toList
  · obtain ⟨k, found⟩ := List.mem_iff_getElem?.mp member
    exact .inr ⟨_, markFrom_of_getElem? nodup found d.nodes 0⟩
  · exact .inl (markFrom_of_not_mem member d.nodes 0)

theorem instructionAt_markDeadStores {d : Draft} (nodup : d.order.toList.Nodup) {k : Nat}
    {n : NodeId} (found : d.order.toList[k]? = some n) :
    (d.markDeadStores liveness).instructionAt n = (d.instructionAt n).marked liveness k := by
  have node : (markFrom liveness d.nodes 0 d.order.toList)[n]? = _ :=
    markFrom_of_getElem? nodup found d.nodes 0
  rw [Nat.zero_add] at node
  rw [markDeadStores_eq]
  unfold instructionAt
  rw [node]
  cases d.nodes[n]? <;> rfl

theorem instructionAt_markDeadStores_or {d : Draft} (nodup : d.order.toList.Nodup) (n : NodeId) :
    (d.markDeadStores liveness).instructionAt n = d.instructionAt n ∨
      ∃ i, (d.markDeadStores liveness).instructionAt n =
        (d.instructionAt n).marked liveness i := by
  unfold instructionAt
  rcases markDeadStores_getElem? liveness nodup n with node | ⟨i, node⟩
  · exact .inl (by rw [node])
  · refine .inr ⟨i, ?_⟩
    rw [node]
    cases d.nodes[n]? <;> rfl

theorem isPlacedNode_markDeadStores {d : Draft} (nodup : d.order.toList.Nodup) (n : NodeId) :
    (d.markDeadStores liveness).isPlacedNode n = d.isPlacedNode n := by
  unfold isPlacedNode
  rcases markDeadStores_getElem? liveness nodup n with node | ⟨i, node⟩
  · rw [node]
  · rw [node]
    cases d.nodes[n]? <;> rfl

theorem keeps_markDeadStores {d : Draft} (nodup : d.order.toList.Nodup) :
    Keeps d (d.markDeadStores liveness) := by
  have same := markDeadStores_eq liveness d
  refine ⟨by rw [same], ?_, by rw [same]⟩
  rintro n ⟨placed, found⟩
  refine ⟨placed, ?_⟩
  rcases markDeadStores_getElem? liveness nodup n with node | ⟨i, node⟩
  · rw [node, found]
  · rw [node, found]
    rfl

theorem Valid.markDeadStores {d : Draft} (valid : d.Valid) :
    (d.markDeadStores liveness).Valid := by
  have same := markDeadStores_eq liveness d
  have k := keeps_markDeadStores liveness valid.nodup
  refine ⟨?_, ?_, ?_, ?_, ?_, ?_⟩
  · rw [same]
    exact valid.nodup
  · intro n
    rw [isPlacedNode_markDeadStores liveness valid.nodup, ← valid.placed, same]
  · intro n x found
    rcases markDeadStores_getElem? liveness valid.nodup n with node | ⟨i, node⟩
    · rw [found] at node
      exact k.owns (valid.operands n x node.symm)
    · rw [found] at node
      obtain ⟨y, stored, rfl⟩ := Option.map_eq_some_iff.mp node.symm
      have own := k.owns (valid.operands n y stored)
      refine ⟨?_, ?_, ?_⟩
      · rw [Instruction.targets_marked]
        exact own.targets
      · rw [Instruction.uses_marked]
        exact own.uses
      · rw [Instruction.defines_marked]
        exact own.defines
  · intro h member
    rw [same] at member
    exact k.handler (valid.handlers h member)
  · intro l member
    rw [same] at member
    exact k.label (valid.lines l member)
  · intro info member
    rw [same] at member
    exact valid.fixed info member

end Draft

end JvmAssembly
