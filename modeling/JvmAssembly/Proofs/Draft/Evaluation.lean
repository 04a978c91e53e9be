import Mathlib
import JvmAssembly.Draft.Resolve

/-!
Resolving, in a form that can be evaluated. The walk for the stack depth ends by a measure and does
not reduce as it stands; a walk of so many steps does. A pass of layout is taken step by step where
its code is too long to be computed.
-/
namespace JvmAssembly

namespace StackDepth.Walk

/-- A walk of at most so many steps, which can be evaluated. -/
def within (f : Flow) : Nat → Walk → Option (Except Fault Int)
  | 0, _ => none
  | n + 1, w =>
    match w.step f with
    | .next w' => within f n w'
    | .done deepest => some (.ok deepest)
    | .stop fault => some (.error fault)

theorem run_of_within {f : Flow} {n : Nat} {w : Walk} {r : Except Fault Int}
    (h : within f n w = some r) : run f w = r := by
  induction n generalizing w with
  | zero => cases h
  | succ n ih =>
      rw [within] at h
      rw [run]
      split <;> rename_i stepped <;> simp only [stepped, Option.some.injEq] at h
      · exact ih h
      · exact h
      · exact h

end StackDepth.Walk

/-- The greatest stack depth, if it is found in so many steps. -/
def Flow.maxStackWithin (n : Nat) (f : Flow) : Option (Except Fault UInt16) :=
  ((StackDepth.start f).within f n).map fun
    | .error fault => .error fault
    | .ok deepest =>
      if deepest > 65535 then .error (.maxStackOverflow deepest.toNat)
      else .ok (UInt16.ofNat deepest.toNat)

theorem Flow.maxStack_of_within {f : Flow} {n : Nat} {r : Except Fault UInt16}
    (h : f.maxStackWithin n = some r) : f.maxStack = r := by
  obtain ⟨walked, ends, rfl⟩ := Option.map_eq_some_iff.mp h
  have ran := StackDepth.Walk.run_of_within ends
  unfold maxStack
  cases walked <;> simp only [ran]

namespace Draft

/-- Resolves the draft, if its stack depth is found in so many steps. -/
def resolveWithin (n : Nat) (pool : Pool) (d : Draft) : Option (Except Fault Code × Draft) :=
  match d.flow with
  | .error fault => some (.error fault, d)
  | .ok flow =>
    let liveness := Liveness.ofFlow flow d.locals.size
    match allocateSlots liveness d with
    | (.error fault, d) => some (.error fault, d)
    | (.ok maxLocals, d) =>
      let d := d.markDeadStores liveness
      let ranges := if d.tracksLocals then d.liveRanges liveness else []
      (flow.maxStackWithin n).map fun
        | .error fault => (.error fault, d)
        | .ok maxStack =>
          match d.layout pool with
          | (.error fault, d) => (.error fault, d)
          | (.ok l, d) => (d.assemble pool l maxStack maxLocals ranges, d)

theorem resolve_of_within {d : Draft} {n : Nat} {pool : Pool} {r : Except Fault Code × Draft}
    (h : d.resolveWithin n pool = some r) : d.resolve pool = r := by
  unfold resolveWithin at h
  unfold resolve
  cases flow : d.flow with
  | error fault =>
      rw [flow] at h
      exact Option.some.inj h
  | ok f =>
      rw [flow] at h
      dsimp only at h ⊢
      generalize allocateSlots (.ofFlow f d.locals.size) d = allocated at h ⊢
      obtain ⟨_ | frame, slotted⟩ := allocated
      · exact Option.some.inj h
      · obtain ⟨depth, measured, rfl⟩ := Option.map_eq_some_iff.mp h
        have deep := Flow.maxStack_of_within measured
        cases laid : (slotted.markDeadStores (.ofFlow f d.locals.size)).layout pool with
        | mk result _ => cases result <;> cases depth <;> simp only [deep, laid]

/-- A resolved draft and what is asked about it, from an evaluation. -/
theorem exists_resolve_of_within {α : Type} {d : Draft} {n : Nat} {pool : Pool} {c : Code}
    {x : α} (view : Draft → α)
    (h : (d.resolveWithin n pool).map (fun r => (r.1.toOption, view r.2)) = some (some c, x)) :
    ∃ d', d.resolve pool = (.ok c, d') ∧ view d' = x := by
  obtain ⟨⟨result, d'⟩, resolved, same⟩ := Option.map_eq_some_iff.mp h
  rw [Prod.mk.injEq] at same
  cases result with
  | error fault => cases same.1
  | ok c' =>
      cases same.1
      exact ⟨d', resolve_of_within resolved, same.2⟩

end Draft

namespace Layout

/-- A step that puts a node that had no place. -/
theorem Pass.step_fresh {pool : Pool} {p : Pass} {node : NodeId} {x : Instruction}
    {code : Bytes} {known : Bool} {n : Nat} (found : p.draft.instructionAt node = x)
    (size : p.code.size = n) (unknown : p.offsets.of? node = none)
    (h : p.draft.encode pool (p.offsets.setIfInBounds node (some n)) n x =
      .ok (.bytes code known)) :
    p.step pool node = (.ok (), { p with
      order := p.order.push node
      offsets := p.offsets.setIfInBounds node (some n)
      code := p.code ++ code
      moved := p.moved || x.isLabel
      settled := p.settled && known }) := by
  unfold step mark
  dsimp only
  rw [found, size, unknown, if_neg (by nofun)]
  dsimp only
  rw [size, h]
  rfl

/-- A step that inverts a condition over a far jump. -/
theorem Pass.step_inverts {pool : Pool} {p : Pass} {node : NodeId} {op inverted : Opcode}
    {target : Label} {distance : Int} {n : Nat}
    (found : p.draft.instructionAt node = .branch op target) (size : p.code.size = n)
    (unknown : p.offsets.of? node = none)
    (h : Encoding.branch (p.offsets.setIfInBounds node (some n)) n op target =
      .tooFar op target distance)
    (conditional : op.farForm? = none) (inverts : op.invert? = some inverted) :
    p.step pool node = (.ok (), Pass.widenCondition
      { p with offsets := p.offsets.setIfInBounds node (some n) } node inverted target
      distance) := by
  unfold step mark
  dsimp only
  rw [found, size, unknown, if_neg (by nofun)]
  dsimp only [Draft.encode]
  rw [size, h]
  dsimp only [widen]
  rw [conditional, inverts]
  simp [Instruction.isLabel]

theorem Pass.run_append {pool : Pool} {p p' : Pass} {nodes rest : List NodeId}
    (h : Pass.run pool nodes p = (.ok (), p')) :
    Pass.run pool (nodes ++ rest) p = Pass.run pool rest p' := by
  induction nodes generalizing p with
  | nil =>
      cases h
      rfl
  | cons node nodes ih =>
      rw [Pass.run] at h
      rw [List.cons_append, Pass.run]
      generalize p.step pool node = stepped at h ⊢
      obtain ⟨_ | _, q⟩ := stepped
      · cases h
      · exact ih h

theorem Pass.run_cons {pool : Pool} {p p' : Pass} {node : NodeId} {rest : List NodeId}
    (h : p.step pool node = (.ok (), p')) :
    Pass.run pool (node :: rest) p = Pass.run pool rest p' := by
  rw [Pass.run, h]

theorem pass_of_run {pool : Pool} {d : Draft} {offsets : Offsets} {nodes : List NodeId}
    {result : Except Fault Unit} {p : Pass} (order : d.order.toList = nodes)
    (h : Pass.run pool nodes ⟨{ d with order := #[] }, #[], offsets, #[], false, true⟩ =
      (result, p)) :
    pass pool d offsets =
      (result, { p with draft := { p.draft with order := p.order }, order := #[] }) := by
  rw [pass, order, h]

end Layout

end JvmAssembly
