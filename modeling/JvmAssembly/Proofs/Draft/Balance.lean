import Mathlib
import JvmAssembly.Proofs.Draft.Detour
import JvmAssembly.Proofs.Draft.StackDepth

/-!
Stack depths where there are no subroutine calls. The greatest depth is found exactly if control
comes to every position at one depth only and never takes more than there is, and then it is the
greatest depth that control comes to. So it is the same behind a detour.
-/
namespace JvmAssembly

namespace Draft

/-- No instruction calls a subroutine. -/
def CallFree (d : Draft) : Prop :=
  ∀ i x, d.at? i = some x → x.isSubroutineCall = false

/-- Control comes to the position at the depth. -/
inductive Reaches (d : Draft) : Nat → Int → Prop
  | start (inside : 0 < d.order.toList.length) : Reaches d 0 0
  | handler {h : Handler} {i : Nat} (member : h ∈ d.handlers) (there : d.PlacedAt h.entry i) :
      Reaches d i 1
  | move {i j : Nat} {x growth : Int} (here : Reaches d i x) (moves : d.Moves i growth j)
      (inside : j < d.order.toList.length) : Reaches d j (x + growth)

/-- The depth is zero, or control comes to it at some position or right behind it. -/
def Attains (d : Draft) (depth : Int) : Prop :=
  depth = 0 ∨ ∃ i x ins, d.Reaches i x ∧ d.at? i = some ins ∧
    (depth = x ∨ depth = x + ins.adjustment)

/-- The depths that control comes to are consistent, and `top` is the greatest of them. -/
structure Balanced (d : Draft) (top : Int) : Prop where
  unique : ∀ {i x y}, d.Reaches i x → d.Reaches i y → x = y
  floor : ∀ {i x ins}, d.Reaches i x → d.at? i = some ins → 0 ≤ x + ins.adjustment
  returns : ∀ {i j x y}, d.Reaches i x → d.Reaches j y → d.Returns i → d.Returns j → x = y
  nonneg : 0 ≤ top
  le_top : ∀ {i x ins}, d.Reaches i x → d.at? i = some ins → x ≤ top ∧ x + ins.adjustment ≤ top
  attained : d.Attains top

theorem Reaches.inside {d : Draft} {i : Nat} {x : Int} (here : d.Reaches i x) :
    i < d.order.toList.length := by
  cases here with
  | start inside => exact inside
  | handler member there => exact there.inside
  | move here moves inside => exact inside

theorem Attains.max {d : Draft} {a b : Int} (first : d.Attains a) (second : d.Attains b) :
    d.Attains (Max.max a b) := by
  rcases Int.le_total a b with le | le
  · rwa [Int.max_eq_right le]
  · rwa [Int.max_eq_left le]

theorem Balanced.le {d : Draft} {top top' : Int} (balanced : d.Balanced top)
    (balanced' : d.Balanced top') : top ≤ top' := by
  rcases balanced.attained with rfl | ⟨i, x, ins, here, found, same⟩
  · exact balanced'.nonneg
  · have bound := balanced'.le_top here found
    rcases same with rfl | rfl
    · exact bound.1
    · exact bound.2

end Draft

namespace StackDepth

open Draft

/-- What was done for a position that was reached. -/
structure Passed (d : Draft) (w : Walk) (i : Nat) (x : Int) : Prop where
  floor : ∀ {ins}, d.at? i = some ins → 0 ≤ x + ins.adjustment
  le_top : ∀ {ins}, d.at? i = some ins → x ≤ w.deepest ∧ x + ins.adjustment ≤ w.deepest
  moves : ∀ {growth j}, d.Moves i growth j → j < d.order.toList.length →
    w.Due w.frame.work j (x + growth)
  returns : d.Returns i → w.frame.returned = some x

/-- A walk without subroutines, as far as it went. -/
structure Tracks (d : Draft) (f : Flow) (w : Walk) : Prop where
  depths_size : w.depths.size = d.order.toList.length
  subroutines_size : w.subroutines.size = d.order.toList.length
  alone : w.callers = []
  work : ∀ {i x}, (i, x) ∈ w.frame.work → d.Reaches i x
  reached : ∀ {i x}, w.Reached i x → d.Reaches i x
  returned : ∀ {x}, w.frame.returned = some x → ∃ i, d.Reaches i x ∧ d.Returns i
  begun : ∀ {i x}, (i, x) ∈ roots f → w.Due w.frame.work i x
  passed : ∀ {i x}, w.Reached i x → Passed d w i x
  nonneg : 0 ≤ w.deepest
  attained : d.Attains w.deepest

section Tracks

variable {d : Draft} {f : Flow} {w w' : Walk} {i : Nat} {x : Int} {work : List (Nat × Int)}

theorem Passed.grow (passed : Passed d w i x) (le : w.deepest ≤ w'.deepest)
    (due : ∀ {j y}, w.Due w.frame.work j y → w'.Due w'.frame.work j y)
    (back : ∀ {y}, w.frame.returned = some y → w'.frame.returned = some y) :
    Passed d w' i x where
  floor := passed.floor
  le_top found := (passed.le_top found).imp (Int.le_trans · le) (Int.le_trans · le)
  moves moves inside := due (passed.moves moves inside)
  returns ret := back (passed.returns ret)

theorem due_advance (first : w.frame.work = (i, x) :: work) (here : w'.Reached i x)
    (old : ∀ {j y}, w.Reached j y → w'.Reached j y) {more : List (Nat × Int)}
    (rest : w'.frame.work = more ++ work) {j : Nat} {y : Int} (due : w.Due w.frame.work j y) :
    w'.Due w'.frame.work j y := by
  rcases due with before | waiting
  · exact .inl (old before)
  · rw [first] at waiting
    rcases List.mem_cons.mp waiting with same | later
    · cases same
      exact .inl here
    · exact .inr (rest ▸ List.mem_append_right _ later)

/-- A step takes the first work item, and its position is reached then. -/
theorem Tracks.advance (tracks : Tracks d f w) (first : w.frame.work = (i, x) :: work)
    (sized : w'.depths.size = w.depths.size) (subroutines : w'.subroutines = w.subroutines)
    (callers : w'.callers = w.callers)
    (reached : ∀ {j y}, w'.Reached j y ↔ j = i ∧ y = x ∨ w.Reached j y)
    (le : w.deepest ≤ w'.deepest) {more : List (Nat × Int)}
    (rest : w'.frame.work = more ++ work) (added : ∀ {j y}, (j, y) ∈ more → d.Reaches j y)
    (back : ∀ {y}, w.frame.returned = some y → w'.frame.returned = some y)
    (returned : ∀ {y}, w'.frame.returned = some y → ∃ j, d.Reaches j y ∧ d.Returns j)
    (here : (∀ {j y}, w.Due w.frame.work j y → w'.Due w'.frame.work j y) → Passed d w' i x)
    (attained : d.Attains w'.deepest) : Tracks d f w' := by
  have due : ∀ {j y}, w.Due w.frame.work j y → w'.Due w'.frame.work j y :=
    due_advance first (reached.mpr (.inl ⟨rfl, rfl⟩)) (fun before => reached.mpr (.inr before)) rest
  have item : d.Reaches i x := tracks.work (first ▸ List.mem_cons_self)
  refine ⟨sized.trans tracks.depths_size, ?_, callers.trans tracks.alone, ?_, ?_, returned,
    fun root => due (tracks.begun root), ?_, Int.le_trans tracks.nonneg le, attained⟩
  · rw [subroutines]
    exact tracks.subroutines_size
  · intro j y member
    rw [rest] at member
    rcases List.mem_append.mp member with new | old
    · exact added new
    · exact tracks.work (first ▸ List.mem_cons_of_mem _ old)
  · intro j y there
    rcases reached.mp there with ⟨rfl, rfl⟩ | before
    · exact item
    · exact tracks.reached before
  · intro j y there
    rcases reached.mp there with ⟨rfl, rfl⟩ | before
    · exact here due
    · exact (tracks.passed before).grow le due back

theorem Tracks.again (tracks : Tracks d f w) (first : w.frame.work = (i, x) :: work)
    (reached : w.Reached i x) : Tracks d f { w with frame := { w.frame with work } } := by
  refine tracks.advance first rfl rfl rfl ⟨.inr, ?_⟩ (Int.le_refl _) (List.nil_append _).symm nofun
    id tracks.returned ?_ tracks.attained
  · rintro (⟨rfl, rfl⟩ | before)
    · exact reached
    · exact before
  · exact fun due => (tracks.passed reached).grow (Int.le_refl _) due id

theorem Tracks.ret (tracks : Tracks d f w) (first : w.frame.work = (i, x) :: work)
    (fresh : w.depths[i]? = some none) (back : d.Returns i) (floor : 0 ≤ x)
    (same : ∀ y, w.frame.returned = some y → y = x) :
    Tracks d f { w.reach i x with frame := ⟨work, some x⟩ } := by
  have item : d.Reaches i x := tracks.work (first ▸ List.mem_cons_self)
  obtain ⟨v, found⟩ := back
  refine tracks.advance first (Array.size_setIfInBounds ..) rfl rfl (reached_iff fresh rfl)
    (Int.le_max_left ..) (List.nil_append _).symm nofun ?_ ?_ ?_ ?_
  · exact fun before => congrArg some (same _ before).symm
  · intro y given
    cases given
    exact ⟨i, item, v, found⟩
  · refine fun _ => ⟨?_, ?_, ?_, fun _ => rfl⟩
    · intro ins there
      cases found.symm.trans there
      rwa [Instruction.adjustment, Int.add_zero]
    · intro ins there
      cases found.symm.trans there
      rw [Instruction.adjustment, Int.add_zero]
      exact ⟨Int.le_max_right .., Int.le_max_right ..⟩
    · intro growth j moves
      cases moves with
      | next there _ falls =>
          cases found.symm.trans there
          cases falls
      | jump there _ member =>
          cases found.symm.trans there
          cases member
  · exact tracks.attained.max (.inr ⟨i, x, _, item, found, .inl rfl⟩)

theorem Tracks.move (tracks : Tracks d f w) {more : List (Nat × Int)} {ins : Instruction}
    (first : w.frame.work = (i, x) :: work) (fresh : w.depths[i]? = some none)
    (found : d.at? i = some ins) (stays : ∀ v, ins ≠ .ret v) (floor : 0 ≤ x + ins.adjustment)
    (added : ∀ j y, (j, y) ∈ more ↔ y = x + ins.adjustment ∧ d.Moves i ins.adjustment j ∧
      j < d.order.toList.length) :
    Tracks d f { w.reach i x with
      deepest := max (max w.deepest x) (x + ins.adjustment)
      frame := { w.frame with work := more ++ work } } := by
  have item : d.Reaches i x := tracks.work (first ▸ List.mem_cons_self)
  refine tracks.advance first (Array.size_setIfInBounds ..) rfl rfl (reached_iff fresh rfl)
    (Int.le_trans (Int.le_max_left ..) (Int.le_max_left ..)) rfl ?_ id tracks.returned ?_ ?_
  · intro j y new
    obtain ⟨rfl, moves, inside⟩ := (added j y).mp new
    exact .move item moves inside
  · refine fun _ => ⟨?_, ?_, ?_, ?_⟩
    · intro ins' there
      cases found.symm.trans there
      exact floor
    · intro ins' there
      cases found.symm.trans there
      exact ⟨Int.le_trans (Int.le_max_right ..) (Int.le_max_left ..), Int.le_max_right ..⟩
    · intro growth j moves inside
      have same : growth = ins.adjustment := moves.growth_eq found
      subst same
      exact .inr (List.mem_append_left _ ((added j _).mpr ⟨rfl, moves, inside⟩))
    · rintro ⟨v, there⟩
      cases found.symm.trans there
      exact absurd rfl (stays v)
  · exact (tracks.attained.max (.inr ⟨i, x, ins, item, found, .inl rfl⟩)).max
      (.inr ⟨i, x, ins, item, found, .inr rfl⟩)

theorem Tracks.next (tracks : Tracks d f w) (free : d.CallFree) (next : Walk.Next d f w w') :
    Tracks d f w' := by
  have uncalled : ∀ {i t}, ¬ d.Calls i t := by
    rintro i t ⟨ins, label, found, calls, -⟩
    rw [free i ins found] at calls
    cases calls
  cases next with
  | leave idle waits => cases tracks.alone.symm.trans waits
  | again first reached => exact tracks.again first reached
  | known first fresh calls => exact absurd calls uncalled
  | enter first fresh calls => exact absurd calls uncalled
  | ret first fresh back floor same => exact tracks.ret first fresh back floor same
  | move first fresh here ordinary stays floor added =>
      exact tracks.move first fresh here stays floor added

theorem mem_roots (valid : d.Valid) (flow : d.flow = .ok f) :
    (i, x) ∈ roots f ↔ (0 < d.order.toList.length ∧ i = 0 ∧ x = 0) ∨
      (x = 1 ∧ ∃ h ∈ d.handlers, d.PlacedAt h.entry i) := by
  unfold roots
  rw [size_flow flow, List.mem_append, List.mem_reverse, List.mem_map]
  constructor
  · rintro (⟨g, member, same⟩ | start)
    · cases same
      obtain ⟨h, found, -, -, there⟩ := handler_of_guard valid flow member
      exact .inr ⟨rfl, h, found, there⟩
    · split at start
      · rename_i inside
        cases List.mem_singleton.mp start
        exact .inl ⟨inside, rfl, rfl⟩
      · cases start
  · rintro (⟨inside, rfl, rfl⟩ | ⟨rfl, h, found, there⟩)
    · right
      rw [if_pos inside]
      exact List.mem_singleton_self _
    · left
      obtain ⟨g, member, -, -, entry⟩ := guard_of_handler valid flow found
      exact ⟨g, member, by rw [entry.unique valid there]⟩

theorem tracks_start (valid : d.Valid) (flow : d.flow = .ok f) : Tracks d f (start f) := by
  refine ⟨Array.size_replicate.trans (size_flow flow), Array.size_replicate.trans (size_flow flow),
    rfl, ?_, ?_, nofun, .inr, ?_, Int.le_refl _, .inl rfl⟩
  · intro i x root
    rcases (mem_roots valid flow).mp root with ⟨inside, rfl, rfl⟩ | ⟨rfl, h, member, there⟩
    · exact .start inside
    · exact .handler member there
  · exact fun reached => absurd reached not_reached_start
  · exact fun reached => absurd reached not_reached_start

/-- A walk that has come to its end has reached all that control comes to. -/
theorem Tracks.reached_of_reaches (tracks : Tracks d f w) (valid : d.Valid)
    (flow : d.flow = .ok f) (done : w.frame.work = []) (here : d.Reaches i x) :
    w.Reached i x := by
  have settled : ∀ {j y}, w.Due w.frame.work j y → w.Reached j y := by
    rintro j y (reached | waiting)
    · exact reached
    · rw [done] at waiting
      cases waiting
  induction here with
  | start inside => exact settled (tracks.begun ((mem_roots valid flow).mpr (.inl ⟨inside, rfl, rfl⟩)))
  | handler member there =>
      exact settled (tracks.begun ((mem_roots valid flow).mpr (.inr ⟨rfl, _, member, there⟩)))
  | move here moves inside ih => exact settled ((tracks.passed ih).moves moves inside)

theorem Tracks.balanced (tracks : Tracks d f w) (valid : d.Valid) (flow : d.flow = .ok f)
    (done : w.frame.work = []) : d.Balanced w.deepest := by
  have reached : ∀ {i x}, d.Reaches i x → w.Reached i x :=
    tracks.reached_of_reaches valid flow done
  refine ⟨?_, ?_, ?_, tracks.nonneg, ?_, tracks.attained⟩
  · intro i x y first second
    have same := (reached first).symm.trans (reached second)
    cases same
    rfl
  · exact fun here => (tracks.passed (reached here)).floor
  · intro i j x y first second back back'
    have same := ((tracks.passed (reached first)).returns back).symm.trans
      ((tracks.passed (reached second)).returns back')
    cases same
    rfl
  · exact fun here => (tracks.passed (reached here)).le_top

theorem Tracks.inside (tracks : Tracks d f w) (j : Nat) (y : Int) (member : (j, y) ∈ w.frame.work) :
    j < d.order.toList.length :=
  (tracks.work member).inside

/-- Where depths are consistent no step is refused. -/
theorem Tracks.not_stop (tracks : Tracks d f w) (free : d.CallFree) (valid : d.Valid)
    (flow : d.flow = .ok f) {top : Int} (balanced : d.Balanced top) (fits : top ≤ depthLimit)
    (fault : Fault) : w.step f ≠ .stop fault := by
  intro stopped
  unfold Walk.step at stopped
  cases first : w.frame.work with
  | nil => simp only [first, tracks.alone, reduceCtorEq] at stopped
  | cons item work =>
      obtain ⟨i, x⟩ := item
      have here : d.Reaches i x := tracks.work (first ▸ List.mem_cons_self)
      obtain ⟨ins, there⟩ := exists_at?.mpr here.inside
      obtain ⟨p, point, described⟩ := flow_point valid flow there
      simp only [first, point] at stopped
      split at stopped
      · rename_i reached
        rw [if_pos (balanced.unique (tracks.reached reached) here)] at stopped
        cases stopped
      · rename_i same
        cases same
        have low := balanced.floor here there
        have high := (balanced.le_top here there).2
        have within : (decide (x + ins.adjustment < 0) || decide (depthLimit < x + ins.adjustment)) =
            false := by
          rw [Bool.or_eq_false_iff, decide_eq_false_iff_not, decide_eq_false_iff_not]
          omega
        unfold Walk.visit at stopped
        simp only [described.isCall, free i ins there, described.adjustment, within,
          Bool.false_eq_true, if_false] at stopped
        split at stopped
        · rename_i isRet
          obtain ⟨v, rfl⟩ := described.isRet.mp isRet
          unfold Walk.giveBack at stopped
          split at stopped
          · rename_i y returned
            obtain ⟨j, other, back⟩ := tracks.returned returned
            have same : y = x := balanced.returns other here back ⟨v, there⟩
            rw [if_pos (by rw [same, Instruction.adjustment, Int.add_zero])] at stopped
            cases stopped
          · cases stopped
        · cases stopped
      · cases stopped

/-- A walk that comes to its end has found the greatest depth. -/
theorem Tracks.run (tracks : Tracks d f w) (free : d.CallFree) (valid : d.Valid)
    (flow : d.flow = .ok f) {deepest : Int} (h : w.run f = .ok deepest) : d.Balanced deepest := by
  induction w using Walk.run.induct f with
  | case1 w w' step _ ih =>
      have next := next_of_step valid flow tracks.depths_size tracks.subroutines_size
        tracks.inside step
      rw [Walk.run] at h
      split at h <;> rename_i stepped <;> cases step.symm.trans stepped
      exact ih (tracks.next free next) h
  | case2 w last step =>
      rw [Walk.run] at h
      split at h <;> rename_i stepped <;> cases step.symm.trans stepped
      cases h
      obtain ⟨done, -, rfl⟩ := done_of_step step
      exact tracks.balanced valid flow done
  | case3 w fault step =>
      rw [Walk.run] at h
      split at h <;> rename_i stepped <;> cases step.symm.trans stepped
      cases h

theorem Tracks.exists_run (tracks : Tracks d f w) (free : d.CallFree) (valid : d.Valid)
    (flow : d.flow = .ok f) {top : Int} (balanced : d.Balanced top) (fits : top ≤ depthLimit) :
    ∃ deepest, w.run f = .ok deepest := by
  induction w using Walk.run.induct f with
  | case1 w w' step _ ih =>
      have next := next_of_step valid flow tracks.depths_size tracks.subroutines_size
        tracks.inside step
      obtain ⟨deepest, ran⟩ := ih (tracks.next free next)
      refine ⟨deepest, ?_⟩
      rw [Walk.run]
      split <;> rename_i stepped <;> cases step.symm.trans stepped
      exact ran
  | case2 w last step =>
      refine ⟨last, ?_⟩
      rw [Walk.run]
      split <;> rename_i stepped <;> cases step.symm.trans stepped
      rfl
  | case3 w fault step => exact absurd step (tracks.not_stop free valid flow balanced fits fault)

end Tracks

end StackDepth

namespace Draft

open StackDepth

variable {d : Draft} {f : Flow} {m : UInt16}

/-- The greatest depth is found exactly if depths are consistent and it fits its field. -/
theorem maxStack_eq_ok_iff (free : d.CallFree) (valid : d.Valid) (flow : d.flow = .ok f) :
    f.maxStack = .ok m ↔ d.Balanced m.toNat := by
  rw [Flow.maxStack_eq_ok]
  constructor
  · rintro ⟨deepest, ran, fits, same⟩
    have balanced := (tracks_start valid flow).run free valid flow ran
    rwa [same, Int.toNat_of_nonneg balanced.nonneg]
  · intro balanced
    have fits : (m.toNat : Int) ≤ 65535 := by
      have bound := m.toNat_lt
      omega
    obtain ⟨deepest, ran⟩ := (tracks_start valid flow).exists_run free valid flow balanced
      (Int.le_trans fits (by decide))
    have found := (tracks_start valid flow).run free valid flow ran
    have same : deepest = m.toNat := Int.le_antisymm (found.le balanced) (balanced.le found)
    exact ⟨deepest, ran, same ▸ fits, by rw [same, Int.toNat_natCast]⟩

theorem adjustment_goto_w (target : Label) :
    (Instruction.branch Opcode.goto_w target).adjustment = 0 := rfl

namespace Detour

variable {d' : Draft} {k i j : Nat} {op inverted : Opcode} {target hop : Label} {x y growth : Int}
  (detour : Detour d d' k op inverted target hop)

include detour

theorem callFree (free : d.CallFree) : d'.CallFree := by
  intro j ins here
  by_contra calls
  obtain ⟨i, -, -, before⟩ := detour.call_back here (Bool.not_eq_false _ ▸ calls)
  exact calls (free i ins before)

theorem adjustment_inverted :
    (Instruction.branch inverted hop).adjustment = op.branchAdjustment :=
  Opcode.branchAdjustment_invert? detour.opposite

theorem moves_inverted : d'.Moves k op.branchAdjustment (k + 1) ∧
    d'.Moves k op.branchAdjustment (k + 2) := by
  have plain := Opcode.plain_of_invert? (Opcode.invert?_invert? detour.opposite)
  rw [← detour.adjustment_inverted]
  refine ⟨.next detour.inverted plain.1 ?_,
    .jump detour.inverted plain.1 (List.mem_singleton_self _) detour.hop⟩
  simp [Instruction.fallsThrough, plain.2.1, plain.2.2]

theorem moves (other : i ≠ k) (before : d.Moves i growth j) :
    d'.Moves (shifted k i) growth (shifted k j) := by
  cases before with
  | next here ordinary falls =>
      rw [shifted_succ other]
      exact .next ((detour.other i other).trans here) ordinary falls
  | jump here ordinary member there =>
      exact .jump ((detour.other i other).trans here) ordinary member (detour.placed there)

theorem reaches (here : d.Reaches i x) : d'.Reaches (shifted k i) x := by
  induction here with
  | start inside =>
      have first : shifted k 0 = 0 := if_pos (Nat.zero_le k)
      rw [first]
      exact .start (first ▸ detour.shifted_inside inside)
  | handler member there => exact .handler (detour.handlers ▸ member) (detour.placed there)
  | move here moves inside ih =>
      rename_i i j x growth
      have bound := detour.shifted_inside inside
      by_cases other : i = k
      · subst other
        have size := detour.length
        have first := detour.inside
        rw [shifted_self] at ih
        cases moves with
        | next found ordinary falls =>
            cases found.symm.trans detour.branch
            have stop := Reaches.move ih detour.moves_inverted.2 (by omega)
            have last := Reaches.move stop (.next detour.label rfl rfl)
              (shifted_succ_self ▸ bound)
            rwa [Instruction.adjustment, Int.add_zero, ← shifted_succ_self] at last
        | jump found ordinary member there =>
            cases found.symm.trans detour.branch
            cases List.mem_singleton.mp member
            have stop := Reaches.move ih detour.moves_inverted.1 (by omega)
            have last := Reaches.move stop
              (.jump detour.jump rfl (List.mem_singleton_self _) (detour.placed there)) bound
            rwa [adjustment_goto_w, Int.add_zero] at last
      · exact .move ih (detour.moves other moves) bound

/-- Control moves as it did, but for the condition, which takes two moves now. -/
theorem moves_back (valid : d.Valid) (after : d'.Valid) (flow : d.flow = .ok f)
    (moves : d'.Moves i growth j) :
    (∃ i' j', i' ≠ k ∧ i = shifted k i' ∧ j = shifted k j' ∧ d.Moves i' growth j') ∨
      (i = k ∧ growth = op.branchAdjustment ∧ (j = k + 1 ∨ j = k + 2)) ∨
      ((i = k + 1 ∨ i = k + 2) ∧ growth = 0 ∧
        ∃ j', j = shifted k j' ∧ d.Moves k op.branchAdjustment j') := by
  have plain := Opcode.plain_of_invert? detour.opposite
  rcases shifted_cases k i with ⟨i, other, rfl⟩ | rfl | rfl | rfl
  · have same := detour.other i other
    left
    cases moves with
    | next here ordinary falls =>
        exact ⟨i, i + 1, other, rfl, (shifted_succ other).symm,
          .next (same.symm.trans here) ordinary falls⟩
    | jump here ordinary member there =>
        have before := same.symm.trans here
        obtain ⟨j', rfl, old⟩ :=
          detour.placed_back after (placed_of_flow valid flow before member) there
        exact ⟨i, j', other, rfl, rfl, .jump before ordinary member old⟩
  · refine .inr (.inl ⟨rfl, ?_⟩)
    have size : growth = op.branchAdjustment :=
      (moves.growth_eq detour.inverted).trans detour.adjustment_inverted
    cases moves with
    | next => exact ⟨size, .inl rfl⟩
    | jump here ordinary member there =>
        cases here.symm.trans detour.inverted
        cases List.mem_singleton.mp member
        exact ⟨size, .inr (there.unique after detour.hop)⟩
  · refine .inr (.inr ⟨.inl rfl, moves.growth_eq detour.jump, ?_⟩)
    cases moves with
    | next here ordinary falls =>
        cases here.symm.trans detour.jump
        cases falls
    | jump here ordinary member there =>
        cases here.symm.trans detour.jump
        have member' : target ∈ (Instruction.branch op target).targets := List.mem_singleton_self _
        cases List.mem_singleton.mp member
        obtain ⟨j', rfl, old⟩ :=
          detour.placed_back after (placed_of_flow valid flow detour.branch member') there
        exact ⟨j', rfl, .jump detour.branch plain.1 member' old⟩
  · refine .inr (.inr ⟨.inr rfl, moves.growth_eq detour.label, ?_⟩)
    cases moves with
    | next here ordinary falls =>
        exact ⟨k + 1, shifted_succ_self.symm, .next detour.branch plain.1 detour.falls_branch⟩
    | jump here ordinary member there =>
        cases here.symm.trans detour.label
        cases member

/-- Control comes to the old positions as it did, and to the new ones from the condition. -/
theorem reaches_back (valid : d.Valid) (after : d'.Valid) (flow : d.flow = .ok f)
    (here : d'.Reaches j y) : (∃ i, j = shifted k i ∧ d.Reaches i y) ∨
      ((j = k + 1 ∨ j = k + 2) ∧ ∃ x, d.Reaches k x ∧ y = x + op.branchAdjustment) := by
  induction here with
  | start inside =>
      have bound := detour.inside
      exact .inl ⟨0, (if_pos (Nat.zero_le k)).symm, .start (by omega)⟩
  | handler member there =>
      rw [detour.handlers] at member
      obtain ⟨g, -, -, -, entry⟩ := guard_of_handler valid flow member
      obtain ⟨i, rfl, before⟩ := detour.placed_back after ⟨_, entry⟩ there
      exact .inl ⟨i, rfl, .handler member before⟩
  | move here moves inside ih =>
      rcases detour.moves_back valid after flow moves with
        ⟨i', j', other, rfl, rfl, before⟩ | ⟨rfl, rfl, new⟩ | ⟨new, rfl, j', rfl, before⟩
      · obtain ⟨i, same, old⟩ | ⟨new, -⟩ := ih
        · cases shifted_injective same
          exact .inl ⟨j', rfl, .move old before (detour.inside_of_shifted inside)⟩
        · unfold shifted at new
          split at new <;> omega
      · obtain ⟨i, same, old⟩ | ⟨late, -⟩ := ih
        · cases shifted_injective (shifted_self.trans same)
          exact .inr ⟨new, _, old, rfl⟩
        · omega
      · obtain ⟨i, same, -⟩ | ⟨-, x, old, rfl⟩ := ih
        · unfold shifted at same
          split at same <;> omega
        · rw [Int.add_zero]
          exact .inl ⟨j', rfl, .move old before (detour.inside_of_shifted inside)⟩

/-- What an old position does to the depth, it does behind the detour. -/
theorem at_shifted {ins : Instruction} (here : d.at? i = some ins) :
    ∃ ins', d'.at? (shifted k i) = some ins' ∧ ins'.adjustment = ins.adjustment := by
  by_cases other : i = k
  · subst other
    cases here.symm.trans detour.branch
    exact ⟨_, shifted_self.symm ▸ detour.inverted, detour.adjustment_inverted⟩
  · exact ⟨ins, (detour.other i other).trans here, rfl⟩

/-- The depths around a position are those around an old one, or the depth behind the
condition. -/
theorem level (valid : d.Valid) (after : d'.Valid) (flow : d.flow = .ok f)
    {ins : Instruction} (here : d'.Reaches j y) (there : d'.at? j = some ins) :
    ∃ i x old, d.Reaches i x ∧ d.at? i = some old ∧
      (y = x ∧ ins.adjustment = old.adjustment ∨
        y = x + old.adjustment ∧ ins.adjustment = 0) := by
  rcases detour.reaches_back valid after flow here with ⟨i, rfl, before⟩ | ⟨new, x, before, rfl⟩
  · obtain ⟨old, stored⟩ := exists_at?.mpr before.inside
    obtain ⟨ins', found, same⟩ := detour.at_shifted stored
    cases there.symm.trans found
    exact ⟨i, y, old, before, stored, .inl ⟨rfl, same⟩⟩
  · refine ⟨k, x, _, before, detour.branch, .inr ⟨rfl, ?_⟩⟩
    rcases new with rfl | rfl
    · cases there.symm.trans detour.jump
      rfl
    · cases there.symm.trans detour.label
      rfl

theorem returns_back (back : d'.Returns j) : ∃ i, j = shifted k i ∧ d.Returns i := by
  obtain ⟨v, here⟩ := back
  rcases shifted_cases k j with ⟨i, other, rfl⟩ | rfl | rfl | rfl
  · exact ⟨i, rfl, v, (detour.other i other).symm.trans here⟩
  · cases here.symm.trans detour.inverted
  · cases here.symm.trans detour.jump
  · cases here.symm.trans detour.label

theorem reaches_shifted (valid : d.Valid) (after : d'.Valid) (flow : d.flow = .ok f)
    (here : d'.Reaches (shifted k i) y) : d.Reaches i y := by
  rcases detour.reaches_back valid after flow here with ⟨i', same, before⟩ | ⟨new, -⟩
  · rwa [shifted_injective same]
  · unfold shifted at new
    split at new <;> omega

theorem balanced (valid : d.Valid) (after : d'.Valid) (flow : d.flow = .ok f) {top : Int}
    (balanced : d.Balanced top) : d'.Balanced top := by
  refine ⟨?_, ?_, ?_, balanced.nonneg, ?_, ?_⟩
  · intro j x y first second
    rcases detour.reaches_back valid after flow first with
      ⟨i, rfl, before⟩ | ⟨new, x, before, rfl⟩
    · exact balanced.unique before (detour.reaches_shifted valid after flow second)
    · rcases detour.reaches_back valid after flow second with
        ⟨i, rfl, -⟩ | ⟨-, y, before', rfl⟩
      · unfold shifted at new
        split at new <;> omega
      · rw [balanced.unique before before']
  · intro j y ins here there
    obtain ⟨i, x, old, before, stored, same⟩ := detour.level valid after flow here there
    have floor := balanced.floor before stored
    omega
  · intro i j x y first second back back'
    obtain ⟨i, rfl, old⟩ := detour.returns_back back
    obtain ⟨j, rfl, old'⟩ := detour.returns_back back'
    exact balanced.returns (detour.reaches_shifted valid after flow first)
      (detour.reaches_shifted valid after flow second) old old'
  · intro j y ins here there
    obtain ⟨i, x, old, before, stored, same⟩ := detour.level valid after flow here there
    have bound := balanced.le_top before stored
    omega
  · rcases balanced.attained with rfl | ⟨i, x, ins, here, found, same⟩
    · exact .inl rfl
    · obtain ⟨ins', found', equal⟩ := detour.at_shifted found
      exact .inr ⟨_, x, ins', detour.reaches here, found', equal ▸ same⟩

end Detour

end Draft

end JvmAssembly
