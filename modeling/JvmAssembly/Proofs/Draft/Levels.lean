import Mathlib
import JvmAssembly.Proofs.Draft.Balance

/-!
The greatest stack depth by a level for each position. Where nothing calls a subroutine or returns
from one, it is found exactly if the positions that control may come to have levels that agree along
all edges and never fall below zero, and then it is the highest of them.
-/
namespace JvmAssembly.Draft

variable {d : Draft} {f : Flow} {level : Nat → Int} {top : Int} {i j : Nat} {x : Int}

/-- Control may come to the position from the start of the method or from the entry of a handler. -/
inductive Visits (d : Draft) : Nat → Prop
  | start (inside : 0 < d.order.toList.length) : Visits d 0
  | handler {h : Handler} {i : Nat} (member : h ∈ d.handlers) (there : d.PlacedAt h.entry i) :
      Visits d i
  | step {i j : Nat} (here : Visits d i) (edge : d.Edge i j) : Visits d j

/-- A depth on entry to each position that control may come to. -/
structure Levels (d : Draft) (level : Nat → Int) : Prop where
  start : 0 < d.order.toList.length → level 0 = 0
  handler : ∀ h ∈ d.handlers, ∀ i, d.PlacedAt h.entry i → level i = 1
  edge : ∀ i j ins, d.Visits i → d.at? i = some ins → d.Edge i j →
    level j = level i + ins.adjustment
  floor : ∀ i ins, d.Visits i → d.at? i = some ins → 0 ≤ level i + ins.adjustment

/-- Zero, and the depths on entry to and behind each position that control may come to. -/
def heights (d : Draft) (level : Nat → Int) : Set Int :=
  {n | n = 0 ∨ ∃ i ins, d.Visits i ∧ d.at? i = some ins ∧
    (n = level i ∨ n = level i + ins.adjustment)}

theorem Visits.inside (here : d.Visits i) : i < d.order.toList.length := by
  cases here with
  | start inside => exact inside
  | handler member there => exact there.inside
  | step here edge =>
      cases edge with
      | next _ _ inside => exact inside
      | jump _ _ there => exact there.inside
      | ret _ _ _ inside => exact inside

/-- Without calls and returns every edge is a move. -/
theorem Edge.moves (free : d.CallFree) (plain : ∀ i, ¬ d.Returns i) {ins : Instruction}
    (here : d.at? i = some ins) (edge : d.Edge i j) : d.Moves i ins.adjustment j := by
  cases edge with
  | next found falls _ =>
      cases here.symm.trans found
      exact .next here (free i ins here) falls
  | jump found member there =>
      cases here.symm.trans found
      exact .jump here (free i ins here) member there
  | ret found => exact absurd ⟨_, found⟩ (plain i)

theorem Moves.edge {growth : Int} (moves : d.Moves i growth j)
    (inside : j < d.order.toList.length) : d.Edge i j := by
  cases moves with
  | next here _ falls => exact .next here falls inside
  | jump here _ member there => exact .jump here member there

theorem Reaches.visits (here : d.Reaches i x) : d.Visits i := by
  induction here with
  | start inside => exact .start inside
  | handler member there => exact .handler member there
  | move _ moves inside ih => exact .step ih (moves.edge inside)

theorem Visits.reaches (free : d.CallFree) (plain : ∀ i, ¬ d.Returns i) (here : d.Visits i) :
    ∃ x, d.Reaches i x := by
  induction here with
  | start inside => exact ⟨0, .start inside⟩
  | handler member there => exact ⟨1, .handler member there⟩
  | @step i j here edge ih =>
      obtain ⟨x, reaches⟩ := ih
      obtain ⟨ins, found⟩ := exists_at?.mpr here.inside
      exact ⟨_, .move reaches (edge.moves free plain found) (here.step edge).inside⟩

/-- Control comes to a position at its level only. -/
theorem Levels.eq_of_reaches (levels : d.Levels level) (here : d.Reaches i x) : x = level i := by
  induction here with
  | start inside => exact (levels.start inside).symm
  | handler member there => exact (levels.handler _ member _ there).symm
  | move here moves inside ih =>
      obtain ⟨ins, found⟩ := exists_at?.mpr here.inside
      rw [levels.edge _ _ ins here.visits found (moves.edge inside), ih, moves.growth_eq found]

theorem Levels.balanced (levels : d.Levels level) (free : d.CallFree)
    (plain : ∀ i, ¬ d.Returns i) (greatest : IsGreatest (d.heights level) top) :
    d.Balanced top := by
  refine ⟨?_, ?_, ?_, greatest.2 (.inl rfl), ?_, ?_⟩
  · intro i x y first second
    rw [levels.eq_of_reaches first, levels.eq_of_reaches second]
  · intro i x ins here found
    rw [levels.eq_of_reaches here]
    exact levels.floor i ins here.visits found
  · exact fun _ _ returns => absurd returns (plain _)
  · intro i x ins here found
    rw [levels.eq_of_reaches here]
    exact ⟨greatest.2 (.inr ⟨i, ins, here.visits, found, .inl rfl⟩),
      greatest.2 (.inr ⟨i, ins, here.visits, found, .inr rfl⟩)⟩
  · rcases greatest.1 with zero | ⟨i, ins, here, found, same⟩
    · exact .inl zero
    · obtain ⟨x, reaches⟩ := here.reaches free plain
      rw [← levels.eq_of_reaches reaches] at same
      exact .inr ⟨i, x, ins, reaches, found, same⟩

open Classical in
/-- The depth at which control comes to a position. -/
noncomputable def levelOf (d : Draft) (i : Nat) : Int :=
  if h : ∃ x, d.Reaches i x then h.choose else 0

theorem Balanced.levelOf_eq (balanced : d.Balanced top) (here : d.Reaches i x) :
    d.levelOf i = x := by
  have reached : ∃ x, d.Reaches i x := ⟨x, here⟩
  rw [levelOf, dif_pos reached]
  exact balanced.unique reached.choose_spec here

theorem Balanced.levels (balanced : d.Balanced top) (free : d.CallFree)
    (plain : ∀ i, ¬ d.Returns i) :
    d.Levels d.levelOf ∧ IsGreatest (d.heights d.levelOf) top := by
  have known : ∀ {i}, d.Visits i → d.Reaches i (d.levelOf i) := by
    intro i here
    obtain ⟨x, reaches⟩ := here.reaches free plain
    rwa [balanced.levelOf_eq reaches]
  refine ⟨⟨?_, ?_, ?_, ?_⟩, ?_, ?_⟩
  · exact fun inside => balanced.levelOf_eq (.start inside)
  · exact fun h member i there => balanced.levelOf_eq (.handler member there)
  · intro i j ins here found edge
    exact balanced.levelOf_eq
      (.move (known here) (edge.moves free plain found) (here.step edge).inside)
  · exact fun i ins here found => balanced.floor (known here) found
  · rcases balanced.attained with zero | ⟨i, x, ins, here, found, same⟩
    · exact .inl zero
    · rw [← balanced.levelOf_eq here] at same
      exact .inr ⟨i, ins, here.visits, found, same⟩
  · rintro n (rfl | ⟨i, ins, here, found, rfl | rfl⟩)
    · exact balanced.nonneg
    · exact (balanced.le_top (known here) found).1
    · exact (balanced.le_top (known here) found).2

/-- Where nothing calls a subroutine or returns from one, the greatest depth is found if and only
if the positions that control may come to have levels, zero at the start and one at the entries of
handlers, that follow the instructions along every edge and leave no position below zero, and none
is too high. Then it is the highest of them. -/
theorem maxStack_iff_levels (reachable : d.Reachable) (placed : d.LabelsPlaced)
    (free : d.CallFree) (plain : ∀ i, ¬ d.Returns i) :
    ∃ f, d.flow = .ok f ∧
      ((∃ m, f.maxStack = .ok m) ↔ ∃ level top, d.Levels level ∧
        IsGreatest (d.heights level) top ∧ top ≤ 65535) ∧
      ∀ m level top, f.maxStack = .ok m → d.Levels level → IsGreatest (d.heights level) top →
        (m.toNat : Int) = top := by
  have valid := reachable.valid
  obtain ⟨f, flow⟩ := exists_flow valid placed
  refine ⟨f, flow, ⟨?_, ?_⟩, ?_⟩
  · rintro ⟨m, measured⟩
    have balanced := (maxStack_eq_ok_iff free valid flow).mp measured
    obtain ⟨levels, greatest⟩ := balanced.levels free plain
    have bound := m.toNat_lt
    exact ⟨_, _, levels, greatest, by omega⟩
  · rintro ⟨level, top, levels, greatest, fits⟩
    have balanced := levels.balanced free plain greatest
    have low := balanced.nonneg
    refine ⟨UInt16.ofNat top.toNat, (maxStack_eq_ok_iff free valid flow).mpr ?_⟩
    rwa [UInt16.toNat_ofNat_of_lt' (show top.toNat < 2 ^ 16 by omega), Int.toNat_of_nonneg low]
  · intro m level top measured levels greatest
    have found := (maxStack_eq_ok_iff free valid flow).mp measured
    have balanced := levels.balanced free plain greatest
    exact Int.le_antisymm (found.le balanced) (balanced.le found)

/-- Two branches that meet at one depth, and a handler around both. -/
def meeting : Draft :=
  let d := (empty 0).createLabel.2.createLabel.2.createLabel.2.createLabel.2
  let d := (placeLabel ⟨0, 0⟩ d).2
  let d := (push (.simple Opcode.iconst_0) d).2
  let d := (push (.branch Opcode.ifeq ⟨0, 1⟩) d).2
  let d := (push (.simple Opcode.iconst_0) d).2
  let d := (push (.branch Opcode.goto ⟨0, 2⟩) d).2
  let d := (placeLabel ⟨0, 1⟩ d).2
  let d := (push (.simple Opcode.iconst_0) d).2
  let d := (placeLabel ⟨0, 2⟩ d).2
  let d := (push (.simple Opcode.ireturn) d).2
  let d := (placeLabel ⟨0, 3⟩ d).2
  let d := (push (.simple Opcode.dup) d).2
  let d := (push (.simple Opcode.pop) d).2
  let d := (push (.simple Opcode.athrow) d).2
  (addHandler ⟨⟨0, 0⟩, ⟨0, 2⟩, ⟨0, 3⟩, none⟩ d).2

theorem reachable_meeting : meeting.Reachable :=
  ((((((((((((((Reachable.empty 0).createLabel.createLabel.createLabel.createLabel.placeLabel
    _).push _).push _).push _).push _).placeLabel _).push _).placeLabel _).push _).placeLabel
    _).push _).push _).push _).addHandler _

theorem maxStack_iff_levels_meeting :
    meeting.Reachable ∧ meeting.LabelsPlaced ∧ meeting.CallFree ∧ (∀ i, ¬ meeting.Returns i) ∧
      ∃ f level, meeting.flow = .ok f ∧ f.maxStack = .ok 2 ∧ meeting.Levels level ∧
        IsGreatest (meeting.heights level) 2 := by
  have placed : meeting.LabelsPlaced := ⟨by decide, by decide⟩
  have all : ∀ i < meeting.order.toList.length, (meeting.at? i).all (fun x =>
      !x.isSubroutineCall && x.uses.isNone) = true := by decide
  have ordinary : ∀ i x, meeting.at? i = some x →
      x.isSubroutineCall = false ∧ x.uses = none := by
    intro i x here
    have both := of_all_at? all here
    rwa [Bool.and_eq_true, Bool.not_eq_true', Option.isNone_iff_eq_none] at both
  have free : meeting.CallFree := fun i x here => (ordinary i x here).1
  have plain : ∀ i, ¬ meeting.Returns i := by
    rintro i ⟨v, here⟩
    cases (ordinary i _ here).2
  obtain ⟨f, flow, exactly, highest⟩ := maxStack_iff_levels reachable_meeting placed free plain
  obtain ⟨g, flow', measured⟩ : ∃ f, meeting.flow = .ok f ∧ f.maxStack = .ok 2 :=
    exists_maxStack 40 (by decide +kernel)
  cases flow.symm.trans flow'
  obtain ⟨level, top, levels, greatest, -⟩ := exactly.mp ⟨2, measured⟩
  have same : (2 : Int) = top := highest 2 level top measured levels greatest
  exact ⟨reachable_meeting, placed, free, plain, f, level, flow, measured, levels, same ▸ greatest⟩

end JvmAssembly.Draft
