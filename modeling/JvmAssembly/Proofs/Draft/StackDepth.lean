import Mathlib
import JvmAssembly.Proofs.Draft.Evaluation
import JvmAssembly.Proofs.Draft.Reachable
import JvmAssembly.Proofs.Draft.Subroutines

/-!
The walk for the stack depth in a structured draft. Each part is walked once and on its own, so
that when the walk ends the depths it found are a gauge. What a step keeps is said of the part that
is walked, of those that wait for a subroutine and of the subroutines that are done, in one way.
-/
namespace JvmAssembly.StackDepth

open Draft

namespace Walk

/-- The position was reached at the depth. -/
def Reached (w : Walk) (i : Nat) (x : Int) : Prop :=
  w.depths[i]? = some (some x)

/-- The subroutine with the entry was walked, or is at work and has no effect yet. -/
def Known (w : Walk) (t : Nat) (s : Subroutine) : Prop :=
  w.subroutines[t]? = some (some s)

/-- The effect of a subroutine is known, and the subroutine is not at work any more. -/
def Settled (w : Walk) (t : Nat) (s : Subroutine) : Prop :=
  w.Known t s ∧ t ∉ w.callers.map (·.entry)

/-- The position was reached at the depth, or is going to be. -/
def Due (w : Walk) (work : List (Nat × Int)) (i : Nat) (x : Int) : Prop :=
  w.Reached i x ∨ (i, x) ∈ work

/-- What is known after a step was known before, and maybe more. -/
structure Grows (w w' : Walk) : Prop where
  reached : ∀ {i x}, w.Reached i x → w'.Reached i x
  settled : ∀ {t s}, w.Settled t s → w'.Settled t s

theorem Due.grow {w w' : Walk} {work work' : List (Nat × Int)} {i : Nat} {x : Int}
    (due : w.Due work i x) (grows : w.Grows w') (more : (i, x) ∈ work → w'.Due work' i x) :
    w'.Due work' i x := by
  rcases due with reached | waiting
  · exact .inl (grows.reached reached)
  · exact more waiting

end Walk

/-- The part that is walked on top of the callers. -/
def partOf : List Caller → Option Nat
  | [] => none
  | c :: _ => some c.entry

/-- The call at a position that was reached has been accounted for. -/
def Answered (d : Draft) (w : Walk) (frame : Frame) (top : Int) (i : Nat) (x : Int) (t : Nat) :
    Prop :=
  ∃ s, w.Settled t s ∧ x + s.excess ≤ top ∧ ∀ net, s.net = some net →
    i + 1 < d.order.toList.length → w.Due frame.work (i + 1) (x + net)

/-- What was done for a position that was reached, unless it has the call that the frame waits
for. -/
structure Served (d : Draft) (w : Walk) (frame : Frame) (top : Int) (waits : Option Nat) (i : Nat)
    (x : Int) : Prop where
  le_top : x ≤ top
  floor : ∀ {ins}, d.at? i = some ins → ins.isSubroutineCall = false → 0 ≤ x + ins.adjustment
  move : ∀ {growth j}, d.Moves i growth j →
    x + growth ≤ top ∧ (j < d.order.toList.length → w.Due frame.work j (x + growth))
  ret : d.Returns i → frame.returned = some x
  call : ∀ {t}, d.Calls i t → waits = some i ∨ Answered d w frame top i x t

/-- The walk of a part, as far as it went. -/
structure Walked (d : Draft) (w : Walk) (part : Option Nat) (frame : Frame) (top : Int)
    (waits : Option Nat) : Prop where
  work : ∀ {i x}, (i, x) ∈ frame.work → d.Part part i
  returned : ∀ {x}, frame.returned = some x → ∃ i, d.Part part i ∧ d.Returns i
  served : ∀ {i x}, w.Reached i x → d.Part part i →
    Served d w frame top waits i x

/-- Where the walk of a part starts is reached or going to be. -/
def Begun (f : Flow) (w : Walk) (work : List (Nat × Int)) : List Caller → Prop
  | [] => ∀ {i x}, (i, x) ∈ roots f → w.Due work i x
  | c :: _ => w.Due work c.entry (c.depth + 1)

/-- The callers wait for one another, each at a call into the part above it. -/
inductive Waiting (d : Draft) (f : Flow) (w : Walk) : List Caller → Prop
  | nil : Waiting d f w []
  | cons {c : Caller} {callers : List Caller}
      (walked : Walked d w (partOf callers) c.frame c.deepest (some c.position))
      (begun : Begun f w c.frame.work callers) (here : d.Part (partOf callers) c.position)
      (calls : d.Calls c.position c.entry)
      (reached : w.Reached c.position c.depth)
      (rest : Waiting d f w callers) : Waiting d f w (c :: callers)

structure Sound (d : Draft) (f : Flow) (w : Walk) : Prop where
  depths_size : w.depths.size = d.order.toList.length
  subroutines_size : w.subroutines.size = d.order.toList.length
  walked : Walked d w (partOf w.callers) w.frame w.deepest none
  begun : Begun f w w.frame.work w.callers
  waiting : Waiting d f w w.callers
  settled : ∀ {t s}, w.Settled t s → ∃ base, w.Reached t (base + 1) ∧
    Walked d w (some t) ⟨[], s.net.map (· + base)⟩ (base + s.excess) none
  at_work : ∀ {c}, c ∈ w.callers → ∃ s, w.Known c.entry s
  entered : ∀ {i x t}, w.Reached i x → d.Part (some t) i →
    ∃ s, w.Known t s

section Growth

variable {d : Draft} {f : Flow} {w w' : Walk}

theorem Served.grow {frame frame' : Frame} {top top' : Int} {waits waits' : Option Nat} {i : Nat}
    {x : Int} (served : Served d w frame top waits i x) (grows : w.Grows w') (le : top ≤ top')
    (more : ∀ {j y}, (j, y) ∈ frame.work → w'.Due frame'.work j y)
    (back : ∀ {y}, frame.returned = some y → frame'.returned = some y)
    (wait : ∀ {t}, waits = some i → d.Calls i t →
      waits' = some i ∨ Answered d w' frame' top' i x t) :
    Served d w' frame' top' waits' i x := by
  refine ⟨Int.le_trans served.le_top le, served.floor, ?_, fun ret => back (served.ret ret), ?_⟩
  · intro growth j moves
    obtain ⟨after, due⟩ := served.move moves
    exact ⟨Int.le_trans after le, fun inside => (due inside).grow grows more⟩
  · intro t calls
    rcases served.call calls with waiting | ⟨s, settled, inner, behind⟩
    · exact wait waiting calls
    · exact .inr ⟨s, grows.settled settled, Int.le_trans inner le,
        fun net known inside => (behind net known inside).grow grows more⟩

/-- The walk of a part that the step has nothing to do with. -/
theorem Walked.grow {part : Option Nat} {frame : Frame} {top : Int} {waits : Option Nat}
    (walked : Walked d w part frame top waits) (grows : w.Grows w')
    (old : ∀ {i x}, w'.Reached i x → d.Part part i → w.Reached i x) :
    Walked d w' part frame top waits := by
  refine ⟨walked.work, walked.returned, ?_⟩
  intro i x reached here
  exact (walked.served (old reached here) here).grow grows (Int.le_refl _) .inr id
    fun waiting _ => .inl waiting

/-- The walk of a part in which the step reaches one more position. -/
theorem Walked.visit {part : Option Nat} {frame frame' : Frame} {top top' : Int}
    {waits : Option Nat} {i : Nat} {x : Int} (walked : Walked d w part frame top none)
    (grows : w.Grows w') (only : ∀ {j y}, w'.Reached j y → j = i ∧ y = x ∨ w.Reached j y)
    (le : top ≤ top') (more : ∀ {j y}, (j, y) ∈ frame.work → w'.Due frame'.work j y)
    (back : ∀ {y}, frame.returned = some y → frame'.returned = some y)
    (work : ∀ {j y}, (j, y) ∈ frame'.work → d.Part part j)
    (returned : ∀ {y}, frame'.returned = some y → ∃ j, d.Part part j ∧ d.Returns j)
    (here : Served d w' frame' top' waits i x) : Walked d w' part frame' top' waits := by
  refine ⟨work, returned, ?_⟩
  intro j y reached member
  rcases only reached with ⟨rfl, rfl⟩ | before
  · exact here
  · exact (walked.served before member).grow grows le more back nofun

theorem Begun.grow {work work' : List (Nat × Int)} {callers : List Caller}
    (begun : Begun f w work callers) (grows : w.Grows w')
    (more : ∀ {j y}, (j, y) ∈ work → w'.Due work' j y) : Begun f w' work' callers := by
  cases callers with
  | nil => exact fun root => (begun root).grow grows more
  | cons c callers => exact Walk.Due.grow begun grows more

/-- The callers call one another, down to the part that is walked. -/
theorem Waiting.nests {callers : List Caller} (waiting : Waiting d f w callers) {c : Caller}
    (member : c ∈ callers) :
    Relation.ReflTransGen d.Nests (some c.entry) (partOf callers) := by
  induction waiting with
  | nil => cases member
  | cons walked begun here calls reached rest ih =>
      rename_i top callers
      rcases List.mem_cons.mp member with rfl | below
      · exact .refl
      · exact (ih below).tail (.call here calls)

theorem Waiting.grow {callers : List Caller} (waiting : Waiting d f w callers)
    (nonrecursive : ∀ s, ¬ Relation.TransGen d.Nests s s) {part : Option Nat}
    (inner : Relation.ReflTransGen d.Nests (partOf callers) part) (grows : w.Grows w')
    (old : ∀ {s i x}, s ≠ part → w'.Reached i x → d.Part s i → w.Reached i x) :
    Waiting d f w' callers := by
  induction waiting with
  | nil => exact .nil
  | cons walked begun here calls reached rest ih =>
      rename_i c callers
      have nests : Relation.TransGen d.Nests (partOf callers) part :=
        .head' (.call here calls) inner
      have other : partOf callers ≠ part := by
        rintro rfl
        exact nonrecursive _ nests
      exact .cons (walked.grow grows (old other)) (begun.grow grows .inr) here calls
        (grows.reached reached) (ih nests.to_reflTransGen)

end Growth

section Steps

variable {d : Draft} {f : Flow} {w w' : Walk}

namespace Walk

/-- A position is reached for the first time. -/
def reach (w : Walk) (i : Nat) (x : Int) : Walk :=
  { w with depths := w.depths.setIfInBounds i (some x), deepest := max w.deepest x }

/-- The call at the position enters a subroutine that is not known yet. -/
def descend (w : Walk) (work : List (Nat × Int)) (i : Nat) (x : Int) (t : Nat) : Walk :=
  { w.reach i x with
    deepest := x + 1
    subroutines := w.subroutines.setIfInBounds t (some ⟨none, 1⟩)
    frame := ⟨[(t, x + 1)], none⟩
    callers := ⟨{ w.frame with work }, i, x, t, max w.deepest x⟩ :: w.callers }

/-- The ways in which a walk goes on. -/
inductive Next (d : Draft) (f : Flow) (w : Walk) : Walk → Prop
  | leave {c : Caller} {callers : List Caller} (idle : w.frame.work = [])
      (waits : w.callers = c :: callers) : Next d f w (w.leave f c callers)
  | again {i : Nat} {x : Int} {work : List (Nat × Int)} (first : w.frame.work = (i, x) :: work)
      (reached : w.Reached i x) : Next d f w { w with frame := { w.frame with work } }
  | known {i t : Nat} {x : Int} {work : List (Nat × Int)} {s : Subroutine}
      (first : w.frame.work = (i, x) :: work) (fresh : w.depths[i]? = some none)
      (calls : d.Calls i t) (found : w.Known t s) :
      Next d f w ((w.reach i x).resume f { w.frame with work } i x s)
  | enter {i t : Nat} {x : Int} {work : List (Nat × Int)}
      (first : w.frame.work = (i, x) :: work) (fresh : w.depths[i]? = some none)
      (calls : d.Calls i t) (absent : w.subroutines[t]? = some none) :
      Next d f w (w.descend work i x t)
  | ret {i : Nat} {x : Int} {work : List (Nat × Int)} (first : w.frame.work = (i, x) :: work)
      (fresh : w.depths[i]? = some none) (back : d.Returns i) (floor : 0 ≤ x)
      (same : ∀ y, w.frame.returned = some y → y = x) :
      Next d f w { w.reach i x with frame := ⟨work, some x⟩ }
  | move {i : Nat} {x : Int} {work more : List (Nat × Int)} {ins : Instruction}
      (first : w.frame.work = (i, x) :: work) (fresh : w.depths[i]? = some none)
      (here : d.at? i = some ins) (ordinary : ins.isSubroutineCall = false)
      (stays : ∀ v, ins ≠ .ret v) (floor : 0 ≤ x + ins.adjustment)
      (added : ∀ j y, (j, y) ∈ more ↔ y = x + ins.adjustment ∧ d.Moves i ins.adjustment j ∧
        j < d.order.toList.length) :
      Next d f w { w.reach i x with
        deepest := max (max w.deepest x) (x + ins.adjustment)
        frame := { w.frame with work := more ++ work } }

end Walk

/-- The point of a call has the place that the call goes to as its only target. -/
theorem targets_of_isCall {i : Nat} {ins : Instruction} {p : Point} (here : d.at? i = some ins)
    (described : d.Describes ins p) (call : ins.isSubroutineCall = true) :
    ∃ t, p.targets = [t] ∧ d.Calls i t := by
  cases ins with
  | branch op label =>
      have rows := described.targets
      rw [Instruction.targets, List.forall₂_cons_left_iff] at rows
      obtain ⟨t, rest, there, none, same⟩ := rows
      rw [List.forall₂_nil_left_iff] at none
      rw [none] at same
      exact ⟨t, same, _, label, here, call, List.mem_singleton_self _, there⟩
  | _ => cases call

/-- The work that a point adds is where its instruction may move. -/
theorem mem_added (valid : d.Valid) (flow : d.flow = .ok f) {i : Nat} {ins : Instruction}
    {p : Point} (here : d.at? i = some ins) (described : d.Describes ins p)
    (ordinary : ins.isSubroutineCall = false) (y : Int) (j : Nat) (z : Int) :
    (j, z) ∈ (p.targets.map fun t => (t, y)).reverse ++
        (if p.fallsThrough && decide (i + 1 < f.size) then [(i + 1, y)] else []) ↔
      z = y ∧ d.Moves i ins.adjustment j ∧ j < d.order.toList.length := by
  rw [described.fallsThrough, size_flow flow, List.mem_append, List.mem_reverse, List.mem_map]
  constructor
  · rintro (⟨t, member, same⟩ | added)
    · cases same
      obtain ⟨k, inside, rfl⟩ := List.getElem_of_mem member
      have there := described.targets.get (described.targets.length_eq ▸ inside) inside
      exact ⟨rfl, .jump here ordinary (List.get_mem _ _) there, there.inside⟩
    · split at added
      · rename_i falls
        rw [Bool.and_eq_true, decide_eq_true_eq] at falls
        cases List.mem_singleton.mp added
        exact ⟨rfl, .next here ordinary falls.1, falls.2⟩
      · cases added
  · rintro ⟨rfl, moves, inside⟩
    generalize ins.adjustment = growth at moves
    cases moves with
    | next here' _ falls =>
        cases here.symm.trans here'
        right
        rw [falls, Bool.true_and, if_pos (decide_eq_true inside)]
        exact List.mem_singleton_self _
    | jump here' _ member there =>
        cases here.symm.trans here'
        exact .inl ⟨j, described.mem_targets valid member there, rfl⟩

/-- A position that was not reached before is visited. -/
theorem next_of_visit (valid : d.Valid) (flow : d.flow = .ok f)
    (sized : w.subroutines.size = d.order.toList.length) {i : Nat} {x : Int}
    {work : List (Nat × Int)} {ins : Instruction} {p : Point}
    (first : w.frame.work = (i, x) :: work) (fresh : w.depths[i]? = some none)
    (here : d.at? i = some ins) (described : d.Describes ins p)
    (h : w.visit f { w.frame with work } i x p = .next w') : Walk.Next d f w w' := by
  unfold Walk.visit at h
  dsimp only at h
  rw [described.isCall, described.adjustment] at h
  cases ordinary : ins.isSubroutineCall with
  | true =>
      obtain ⟨t, targets, calls⟩ := targets_of_isCall here described ordinary
      rw [ordinary, targets, if_pos rfl] at h
      cases h
      have bound : t < w.subroutines.size := sized ▸ calls.inside.2
      unfold Walk.call
      dsimp only
      cases found : w.subroutines[t]? with
      | none => exact absurd (Array.getElem?_eq_none_iff.mp found) (Nat.not_le.mpr bound)
      | some known =>
          cases known with
          | none => exact .enter first fresh calls found
          | some s => exact .known first fresh calls found
  | false =>
      rw [ordinary, if_neg Bool.false_ne_true] at h
      split at h
      · cases h
      · rename_i floor
        have low : 0 ≤ x + ins.adjustment := by
          by_contra negative
          exact floor (by simp [Int.not_le.mp negative])
        split at h
        · rename_i isRet
          obtain ⟨v, rfl⟩ := described.isRet.mp isRet
          rw [Instruction.adjustment, Int.add_zero] at h low
          rw [Int.max_eq_left (Int.le_max_right w.deepest x)] at h
          unfold Walk.giveBack at h
          cases returned : w.frame.returned with
          | none =>
              rw [returned] at h
              cases h
              exact .ret first fresh ⟨v, here⟩ low (by simp [returned])
          | some y =>
              rw [returned] at h
              dsimp only at h
              split at h
              · rename_i same
                cases h
                subst same
                exact .ret first fresh ⟨v, here⟩ low (by simp [returned])
              · cases h
        · rename_i isRet
          cases h
          have stays : ∀ v, ins ≠ .ret v := fun v same => isRet (described.isRet.mpr ⟨v, same⟩)
          exact .move first fresh here ordinary stays low
            (mem_added valid flow here described ordinary _)

theorem next_of_step (valid : d.Valid) (flow : d.flow = .ok f)
    (depths : w.depths.size = d.order.toList.length)
    (subroutines : w.subroutines.size = d.order.toList.length)
    (inside : ∀ i x, (i, x) ∈ w.frame.work → i < d.order.toList.length)
    (h : w.step f = .next w') : Walk.Next d f w w' := by
  unfold Walk.step at h
  cases first : w.frame.work with
  | nil =>
      rw [first] at h
      cases waits : w.callers with
      | nil =>
          rw [waits] at h
          cases h
      | cons c callers =>
          rw [waits] at h
          cases h
          exact .leave first waits
  | cons item work =>
      obtain ⟨i, x⟩ := item
      rw [first] at h
      dsimp only at h
      have bound := inside i x (first ▸ List.mem_cons_self ..)
      have inDepths : i < w.depths.size := depths ▸ bound
      have inPoints : i < f.points.size := Nat.lt_of_lt_of_eq bound (size_flow flow).symm
      obtain ⟨ins, here, described⟩ :=
        flow_instruction valid flow (Array.getElem?_eq_getElem inPoints)
      rw [Array.getElem?_eq_getElem inPoints] at h
      generalize f.points[i] = p at h described
      cases found : w.depths[i]? with
      | none => exact absurd (Array.getElem?_eq_none_iff.mp found) (Nat.not_le.mpr inDepths)
      | some reached =>
          rw [found] at h
          cases reached with
          | none => exact next_of_visit valid flow subroutines first found here described h
          | some y =>
              dsimp only at h
              split at h
              · rename_i same
                cases h
                subst same
                exact .again first found
              · cases h

end Steps

section Preservation

variable {d : Draft} {f : Flow} {w w' : Walk} {i : Nat} {x : Int} {work : List (Nat × Int)}

theorem reached_iff (fresh : w.depths[i]? = some none)
    (depths : w'.depths = w.depths.setIfInBounds i (some x)) {j : Nat} {y : Int} :
    w'.Reached j y ↔ j = i ∧ y = x ∨ w.Reached j y := by
  have inside := (Array.getElem?_eq_some_iff.mp fresh).1
  unfold Walk.Reached
  rw [depths]
  by_cases same : i = j
  · subst same
    rw [Array.getElem?_setIfInBounds_self_of_lt inside, fresh]
    simp [eq_comm]
  · rw [Array.getElem?_setIfInBounds_ne same]
    simp [Ne.symm same]

/-- Parts other than the one that is walked see nothing of a new position. -/
theorem reached_of_other (separate : ∀ s s' i, d.Part s i → d.Part s' i → s = s')
    {part s : Option Nat} (here : d.Part part i)
    (only : ∀ {j y}, w'.Reached j y → j = i ∧ y = x ∨ w.Reached j y) (other : s ≠ part)
    {j : Nat} {y : Int} (reached : w'.Reached j y) (member : d.Part s j) : w.Reached j y := by
  rcases only reached with ⟨rfl, -⟩ | before
  · exact absurd (separate _ _ _ member here) other
  · exact before

theorem ne_partOf {callers : List Caller} {t : Nat} (absent : t ∉ callers.map (·.entry)) :
    some t ≠ partOf callers := by
  cases callers with
  | nil => exact nofun
  | cons c callers =>
      intro same
      cases same
      exact absent (List.mem_cons_self ..)

/-- A call goes to a subroutine that is not at work. -/
theorem Sound.not_at_work (sound : Sound d f w) (structured : d.Structured)
    (here : d.Part (partOf w.callers) i) {t : Nat} (calls : d.Calls i t) :
    t ∉ w.callers.map (·.entry) := by
  intro member
  obtain ⟨c, below, rfl⟩ := List.mem_map.mp member
  exact structured.nonrecursive _ (.tail' (sound.waiting.nests below) (.call here calls))

theorem settled_iff (subroutines : w'.subroutines = w.subroutines)
    (callers : w'.callers = w.callers) {t : Nat} {s : Subroutine} :
    w'.Settled t s ↔ w.Settled t s := by
  unfold Walk.Settled Walk.Known
  rw [subroutines, callers]

/-- A subroutine of which something was reached is known, also if that is new. -/
theorem Sound.entered_of_old (sound : Sound d f w) {t j : Nat} {y : Int}
    (old : some t ≠ partOf w.callers → w.Reached j y) (member : d.Part (some t) j) :
    ∃ s, w.Known t s := by
  by_cases current : some t = partOf w.callers
  · cases top : w.callers with
    | nil =>
        rw [top] at current
        cases current
    | cons c rest =>
        rw [top] at current
        cases current
        exact sound.at_work (top ▸ List.mem_cons_self ..)
  · exact sound.entered (old current) member

/-- A step that neither enters nor leaves a subroutine. -/
theorem Sound.advance (sound : Sound d f w) (structured : d.Structured)
    (sized : w'.depths.size = w.depths.size) (subroutines : w'.subroutines = w.subroutines)
    (callers : w'.callers = w.callers) (reached : ∀ {j y}, w.Reached j y → w'.Reached j y)
    (old : ∀ {s j y}, s ≠ partOf w.callers → w'.Reached j y → d.Part s j → w.Reached j y)
    (more : ∀ {j y}, (j, y) ∈ w.frame.work → w'.Due w'.frame.work j y)
    (walked : Walked d w' (partOf w.callers) w'.frame w'.deepest none) : Sound d f w' := by
  have known : ∀ {t s}, w.Known t s → w'.Known t s := fun found =>
    (congrArg (·[_]?) subroutines).trans found
  have grows : w.Grows w' := ⟨reached, (settled_iff subroutines callers).mpr⟩
  refine ⟨sized.trans sound.depths_size, ?_, ?_, ?_, ?_, ?_, ?_, ?_⟩
  · rw [subroutines]
    exact sound.subroutines_size
  · rw [callers]
    exact walked
  · rw [callers]
    exact sound.begun.grow grows more
  · rw [callers]
    exact sound.waiting.grow structured.nonrecursive .refl grows old
  · intro t s settled
    have before := (settled_iff subroutines callers).mp settled
    obtain ⟨base, entry, done⟩ := sound.settled before
    exact ⟨base, reached entry, done.grow grows (old (ne_partOf before.2))⟩
  · intro c member
    rw [callers] at member
    exact (sound.at_work member).imp fun _ => known
  · intro j y t there member
    exact (sound.entered_of_old (fun other => old other there member) member).imp fun _ => known

theorem Sound.again (sound : Sound d f w) (structured : d.Structured)
    (first : w.frame.work = (i, x) :: work) (reached : w.Reached i x) :
    Sound d f { w with frame := { w.frame with work } } := by
  have more : ∀ {j y}, (j, y) ∈ w.frame.work →
      Walk.Due { w with frame := { w.frame with work } } work j y := by
    intro j y member
    rw [first] at member
    rcases List.mem_cons.mp member with same | later
    · cases same
      exact .inl reached
    · exact .inr later
  refine sound.advance structured rfl rfl rfl id (fun _ there _ => there) more
    ⟨?_, sound.walked.returned, ?_⟩
  · intro j y member
    exact sound.walked.work (first ▸ List.mem_cons_of_mem _ member)
  · intro j y before member
    exact (sound.walked.served before member).grow ⟨id, id⟩ (Int.le_refl _) more id nofun

/-- A position is reached for the first time, and what it leads to is served. -/
theorem Sound.visit (sound : Sound d f w) (structured : d.Structured)
    (first : w.frame.work = (i, x) :: work) (fresh : w.depths[i]? = some none)
    (depths : w'.depths = w.depths.setIfInBounds i (some x))
    (subroutines : w'.subroutines = w.subroutines) (callers : w'.callers = w.callers)
    (le : w.deepest ≤ w'.deepest) (kept : ∀ {j y}, (j, y) ∈ work → (j, y) ∈ w'.frame.work)
    (added : ∀ {j y}, (j, y) ∈ w'.frame.work → (j, y) ∈ work ∨ d.Part (partOf w.callers) j)
    (back : ∀ {y}, w.frame.returned = some y → w'.frame.returned = some y)
    (returned : ∀ {y}, w'.frame.returned = some y → w.frame.returned = some y ∨ d.Returns i)
    (served : Served d w' w'.frame w'.deepest none i x) : Sound d f w' := by
  have here : d.Part (partOf w.callers) i :=
    sound.walked.work (first ▸ List.mem_cons_self ..)
  have reached : ∀ {j y}, w'.Reached j y ↔ j = i ∧ y = x ∨ w.Reached j y :=
    reached_iff fresh depths
  have more : ∀ {j y}, (j, y) ∈ w.frame.work → w'.Due w'.frame.work j y := by
    intro j y member
    rw [first] at member
    rcases List.mem_cons.mp member with same | later
    · cases same
      exact .inl (reached.mpr (.inl ⟨rfl, rfl⟩))
    · exact .inr (kept later)
  refine sound.advance structured ?_ subroutines callers (fun before => reached.mpr (.inr before))
    (fun other => reached_of_other structured.separate here reached.mp other) more
    (sound.walked.visit ⟨fun before => reached.mpr (.inr before),
      (settled_iff subroutines callers).mpr⟩ reached.mp le more back ?_ ?_ served)
  · rw [depths, Array.size_setIfInBounds]
  · intro j y member
    rcases added member with before | inside
    · exact sound.walked.work (first ▸ List.mem_cons_of_mem _ before)
    · exact inside
  · intro y gives
    rcases returned gives with before | ret
    · exact sound.walked.returned before
    · exact ⟨i, here, ret⟩

theorem Sound.move (sound : Sound d f w) (structured : d.Structured) {more : List (Nat × Int)}
    {ins : Instruction} (first : w.frame.work = (i, x) :: work)
    (fresh : w.depths[i]? = some none) (at_i : d.at? i = some ins)
    (ordinary : ins.isSubroutineCall = false) (stays : ∀ v, ins ≠ .ret v)
    (floor : 0 ≤ x + ins.adjustment)
    (added : ∀ j y, (j, y) ∈ more ↔ y = x + ins.adjustment ∧ d.Moves i ins.adjustment j ∧
      j < d.order.toList.length) :
    Sound d f { w.reach i x with
      deepest := max (max w.deepest x) (x + ins.adjustment)
      frame := { w.frame with work := more ++ work } } := by
  have here : d.Part (partOf w.callers) i :=
    sound.walked.work (first ▸ List.mem_cons_self ..)
  refine sound.visit structured first fresh rfl rfl rfl ?_ (List.mem_append_right _) ?_ id .inl
    ⟨?_, ?_, ?_, ?_, ?_⟩
  · exact Int.le_trans (Int.le_max_left ..) (Int.le_max_left ..)
  · intro j y member
    rcases List.mem_append.mp member with new | before
    · obtain ⟨-, moves, inside⟩ := (added j y).mp new
      exact .inr (.move here moves inside)
    · exact .inl before
  · exact Int.le_trans (Int.le_max_right ..) (Int.le_max_left ..)
  · intro other same _
    cases at_i.symm.trans same
    exact floor
  · intro growth j moves
    have same : growth = ins.adjustment := by
      cases moves with
      | next same => cases at_i.symm.trans same; rfl
      | jump same => cases at_i.symm.trans same; rfl
    subst same
    exact ⟨Int.le_max_right .., fun inside =>
      .inr (List.mem_append_left _ ((added j _).mpr ⟨rfl, moves, inside⟩))⟩
  · rintro ⟨v, same⟩
    exact absurd (Option.some.inj (at_i.symm.trans same)) (stays v)
  · rintro t ⟨other, label, same, calls, -⟩
    cases at_i.symm.trans same
    rw [ordinary] at calls
    cases calls

theorem Sound.ret (sound : Sound d f w) (structured : d.Structured)
    (first : w.frame.work = (i, x) :: work) (fresh : w.depths[i]? = some none)
    (back : d.Returns i) (floor : 0 ≤ x) (same : ∀ y, w.frame.returned = some y → y = x) :
    Sound d f { w.reach i x with frame := ⟨work, some x⟩ } := by
  obtain ⟨v, at_i⟩ := back
  refine sound.visit structured first fresh rfl rfl rfl (Int.le_max_left ..) id .inl
    (fun before => congrArg some (same _ before).symm) (fun _ => .inr ⟨v, at_i⟩)
    ⟨Int.le_max_right .., ?_, ?_, fun _ => rfl, ?_⟩
  · intro other here _
    cases at_i.symm.trans here
    exact (Int.add_zero x).symm ▸ floor
  · intro growth j moves
    cases moves with
    | next here _ falls =>
        cases at_i.symm.trans here
        cases falls
    | jump here _ member =>
        cases at_i.symm.trans here
        cases member
  · rintro t ⟨other, label, here, calls, -⟩
    cases at_i.symm.trans here
    cases calls

theorem served_of_calls (valid : d.Valid) {frame : Frame} {top : Int} {waits : Option Nat}
    {t : Nat} (calls : d.Calls i t) (le : x ≤ top)
    (answer : waits = some i ∨ Answered d w frame top i x t) : Served d w frame top waits i x := by
  have once := fun {u} (other : d.Calls i u) => other.unique valid calls
  obtain ⟨ins, label, at_i, call, -⟩ := calls
  refine ⟨le, ?_, ?_, ?_, ?_⟩
  · intro other same ordinary
    cases at_i.symm.trans same
    rw [call] at ordinary
    cases ordinary
  · intro growth j moves
    cases moves with
    | next same ordinary =>
        cases at_i.symm.trans same
        rw [call] at ordinary
        cases ordinary
    | jump same ordinary =>
        cases at_i.symm.trans same
        rw [call] at ordinary
        cases ordinary
  · rintro ⟨v, same⟩
    cases at_i.symm.trans same
    cases call
  · intro u other
    rw [once other]
    exact answer

theorem mem_resume {frame : Frame} {s : Subroutine} {j : Nat} {y : Int} :
    (j, y) ∈ (w.resume f frame i x s).frame.work ↔
      (j, y) ∈ frame.work ∨ ∃ net, s.net = some net ∧ i + 1 < f.size ∧ j = i + 1 ∧ y = x + net := by
  unfold Walk.resume
  cases s.net with
  | none => simp
  | some net =>
      by_cases inside : i + 1 < f.size
      · simp [inside, or_comm]
      · simp [inside]

/-- Behind a call whose subroutine may return, the part goes on. -/
theorem Walked.resume {part : Option Nat} {frame : Frame} {top : Int} {t : Nat}
    (walked : Walked d w (some t) frame top none) {y : Int} (found : frame.returned = some y)
    (here : d.Part part i) (calls : d.Calls i t) (inside : i + 1 < d.order.toList.length) :
    d.Part part (i + 1) := by
  obtain ⟨r, last, back⟩ := walked.returned found
  exact .resume here calls last back inside

theorem Sound.known (sound : Sound d f w) (structured : d.Structured) (valid : d.Valid)
    (flow : d.flow = .ok f) {t : Nat} {s : Subroutine} (first : w.frame.work = (i, x) :: work)
    (fresh : w.depths[i]? = some none) (calls : d.Calls i t)
    (found : w.Known t s) :
    Sound d f ((w.reach i x).resume f { w.frame with work } i x s) := by
  have here : d.Part (partOf w.callers) i :=
    sound.walked.work (first ▸ List.mem_cons_self ..)
  have settled : w.Settled t s := ⟨found, sound.not_at_work structured here calls⟩
  obtain ⟨base, entry, done⟩ := sound.settled settled
  refine sound.visit structured first fresh rfl rfl rfl ?_
    (fun member => mem_resume.mpr (.inl member)) ?_ id .inl
    (served_of_calls valid calls ?_ (.inr ⟨s, settled, Int.le_max_right .., ?_⟩))
  · exact Int.le_trans (Int.le_max_left ..) (Int.le_max_left ..)
  · intro j y member
    rcases mem_resume.mp member with before | ⟨net, gives, inside, rfl, -⟩
    · exact .inl before
    · exact .inr (done.resume (congrArg (Option.map (· + base)) gives) here calls (size_flow flow ▸ inside))
  · exact Int.le_trans (Int.le_max_right ..) (Int.le_max_left ..)
  · intro net gives inside
    exact .inr (mem_resume.mpr (.inr ⟨net, gives, (size_flow flow).symm ▸ inside, rfl, rfl⟩))

theorem Sound.enter (sound : Sound d f w) (structured : d.Structured) (valid : d.Valid)
    {t : Nat} (first : w.frame.work = (i, x) :: work) (fresh : w.depths[i]? = some none)
    (calls : d.Calls i t) (absent : w.subroutines[t]? = some none) :
    Sound d f (w.descend work i x t) := by
  have here : d.Part (partOf w.callers) i :=
    sound.walked.work (first ▸ List.mem_cons_self ..)
  have idle : t ∉ w.callers.map (·.entry) := sound.not_at_work structured here calls
  have inside := (Array.getElem?_eq_some_iff.mp absent).1
  have reached : ∀ {j y}, (w.descend work i x t).Reached j y ↔ j = i ∧ y = x ∨ w.Reached j y :=
    reached_iff fresh rfl
  have known : ∀ {u}, t ≠ u →
      (w.descend work i x t).subroutines[u]? = w.subroutines[u]? :=
    fun other => Array.getElem?_setIfInBounds_ne other
  have placeholder : (w.descend work i x t).Known t ⟨none, 1⟩ :=
    Array.getElem?_setIfInBounds_self_of_lt inside
  have keeps : ∀ {u}, (∃ s, w.Known u s) →
      ∃ s, (w.descend work i x t).Known u s := by
    rintro u ⟨s, found⟩
    by_cases same : t = u
    · subst same
      exact ⟨_, placeholder⟩
    · exact ⟨s, (known same).trans found⟩
  have grows : w.Grows (w.descend work i x t) := by
    refine ⟨fun before => reached.mpr (.inr before), ?_⟩
    rintro u s ⟨found, away⟩
    have other : t ≠ u := by
      rintro rfl
      cases absent.symm.trans found
    refine ⟨(known other).trans found, ?_⟩
    intro member
    rcases List.mem_cons.mp member with same | below
    · exact other same.symm
    · exact away below
  have old : ∀ {s j y}, s ≠ partOf w.callers → (w.descend work i x t).Reached j y →
      d.Part s j → w.Reached j y :=
    fun other => reached_of_other structured.separate here reached.mp other
  have more : ∀ {j y}, (j, y) ∈ w.frame.work → (w.descend work i x t).Due work j y := by
    intro j y member
    rw [first] at member
    rcases List.mem_cons.mp member with same | later
    · cases same
      exact .inl (reached.mpr (.inl ⟨rfl, rfl⟩))
    · exact .inr later
  refine ⟨?_, ?_, ⟨?_, nofun, ?_⟩, .inr (List.mem_singleton_self _), .cons ?_ ?_ here calls ?_ ?_,
    ?_, ?_, ?_⟩
  · exact (Array.size_setIfInBounds ..).trans sound.depths_size
  · exact (Array.size_setIfInBounds ..).trans sound.subroutines_size
  · intro j y member
    cases List.mem_singleton.mp member
    exact .enter here calls
  · -- Nothing of the subroutine was reached yet, since it would be known then.
    intro j y before member
    obtain ⟨s, found⟩ := sound.entered (old (ne_partOf idle) before member) member
    cases absent.symm.trans found
  · refine sound.walked.visit grows reached.mp (Int.le_max_left ..) more id ?_
      sound.walked.returned (served_of_calls valid calls (Int.le_max_right ..) (.inl rfl))
    intro j y member
    exact sound.walked.work (first ▸ List.mem_cons_of_mem _ member)
  · exact sound.begun.grow grows more
  · exact reached.mpr (.inl ⟨rfl, rfl⟩)
  · exact sound.waiting.grow structured.nonrecursive .refl grows old
  · rintro u s ⟨found, away⟩
    have other : t ≠ u := fun same => away (same ▸ List.mem_cons_self ..)
    have before : w.Settled u s :=
      ⟨(known other).symm.trans found, fun below => away (List.mem_cons_of_mem _ below)⟩
    obtain ⟨base, entry, done⟩ := sound.settled before
    exact ⟨base, grows.reached entry, done.grow grows (old (ne_partOf before.2))⟩
  · intro c member
    rcases List.mem_cons.mp member with rfl | below
    · exact ⟨_, placeholder⟩
    · exact keeps (sound.at_work below)
  · intro j y u there member
    exact keeps (sound.entered_of_old (fun other => old other there member) member)

/-- The effect of the subroutine that the last caller waits for. -/
def Walk.effect (w : Walk) (c : Caller) : Subroutine :=
  ⟨w.frame.returned.map (· - c.depth), w.deepest - c.depth⟩

theorem known_leave {c : Caller} {callers : List Caller} (inside : c.entry < w.subroutines.size)
    {t : Nat} {s : Subroutine} :
    (w.leave f c callers).Known t s ↔
      c.entry = t ∧ w.effect c = s ∨ c.entry ≠ t ∧ w.Known t s := by
  change (w.subroutines.setIfInBounds c.entry (some (w.effect c)))[t]? = some (some s) ↔ _
  by_cases same : c.entry = t
  · subst same
    rw [Array.getElem?_setIfInBounds_self_of_lt inside]
    simp
  · rw [Array.getElem?_setIfInBounds_ne same]
    simp [same, Walk.Known]

theorem frame_of_effect {c : Caller} (idle : w.frame.work = []) :
    (⟨[], (w.effect c).net.map (· + c.depth)⟩ : Frame) = w.frame := by
  obtain ⟨depths, deepest, subroutines, ⟨work, returned⟩, callers⟩ := w
  cases idle
  cases returned <;> simp [Walk.effect]

/-- The subroutine is walked: what is known of it now holds for all of its calls. -/
theorem Sound.leave (sound : Sound d f w) (structured : d.Structured) (valid : d.Valid)
    (flow : d.flow = .ok f) {c : Caller} {callers : List Caller} (idle : w.frame.work = [])
    (waits : w.callers = c :: callers) : Sound d f (w.leave f c callers) := by
  have waiting := sound.waiting
  have begun := sound.begun
  have walked := sound.walked
  rw [waits] at waiting begun walked
  cases waiting with
  | cons outer start here calls reached rest =>
      have inside : c.entry < w.subroutines.size := sound.subroutines_size ▸ calls.inside.2
      have away : c.entry ∉ callers.map (·.entry) := by
        intro member
        obtain ⟨below, above, same⟩ := List.mem_map.mp member
        exact structured.nonrecursive _ (.tail' (same ▸ rest.nests above) (.call here calls))
      have settled : ∀ {t s}, (w.leave f c callers).Settled t s ↔
          c.entry = t ∧ w.effect c = s ∨ w.Settled t s := by
        intro t s
        unfold Walk.Settled
        rw [known_leave inside, waits]
        constructor
        · rintro ⟨⟨rfl, rfl⟩ | ⟨other, found⟩, absent⟩
          · exact .inl ⟨rfl, rfl⟩
          · rw [List.map_cons, List.mem_cons, not_or]
            exact .inr ⟨found, Ne.symm other, absent⟩
        · rintro (⟨rfl, rfl⟩ | ⟨found, absent⟩)
          · exact ⟨.inl ⟨rfl, rfl⟩, away⟩
          · rw [List.map_cons, List.mem_cons, not_or] at absent
            exact ⟨.inr ⟨Ne.symm absent.1, found⟩, absent.2⟩
      have grows : w.Grows (w.leave f c callers) := ⟨id, fun before => settled.mpr (.inr before)⟩
      have keeps : ∀ {t}, (∃ s, w.Known t s) → ∃ s, (w.leave f c callers).Known t s := by
        rintro t ⟨s, found⟩
        by_cases same : c.entry = t
        · exact ⟨_, (known_leave inside).mpr (.inl ⟨same, rfl⟩)⟩
        · exact ⟨s, (known_leave inside).mpr (.inr ⟨same, found⟩)⟩
      have more : ∀ {j y}, (j, y) ∈ c.frame.work →
          (w.leave f c callers).Due (w.leave f c callers).frame.work j y :=
        fun member => .inr (mem_resume.mpr (.inl member))
      refine ⟨sound.depths_size, ?_, ⟨?_, outer.returned, ?_⟩, start.grow grows more,
        rest.grow structured.nonrecursive .refl grows (fun _ there _ => there), ?_, ?_, ?_⟩
      · exact (Array.size_setIfInBounds ..).trans sound.subroutines_size
      · intro j y member
        rcases mem_resume.mp member with before | ⟨net, gives, behind, rfl, -⟩
        · exact outer.work before
        · obtain ⟨y, found, -⟩ := Option.map_eq_some_iff.mp gives
          exact walked.resume found here calls (size_flow flow ▸ behind)
      · intro j y there member
        have le : c.deepest ≤ (w.leave f c callers).deepest :=
          Int.le_trans (Int.le_max_right ..) (Int.le_max_left ..)
        refine (outer.served there member).grow grows le more id ?_
        intro t same called
        cases same
        cases called.unique valid calls
        cases reached.symm.trans there
        refine .inr ⟨w.effect c, settled.mpr (.inl ⟨rfl, rfl⟩), Int.le_max_right .., ?_⟩
        intro net gives behind
        exact .inr (mem_resume.mpr
          (.inr ⟨net, gives, (size_flow flow).symm ▸ behind, rfl, rfl⟩))
      · intro t s found
        rcases settled.mp found with ⟨rfl, rfl⟩ | before
        · refine ⟨c.depth, ?_, ?_⟩
          · rcases begun with done | due
            · exact done
            · rw [idle] at due
              cases due
          · rw [frame_of_effect idle]
            have same : c.depth + (w.effect c).excess = w.deepest := by
              simp [Walk.effect]
            rw [same]
            exact walked.grow grows fun there _ => there
        · obtain ⟨base, entry, done⟩ := sound.settled before
          exact ⟨base, entry, done.grow grows fun there _ => there⟩
      · intro below member
        exact keeps (sound.at_work (waits ▸ List.mem_cons_of_mem _ member))
      · intro j y t there member
        exact keeps (sound.entered there member)

theorem Sound.next (sound : Sound d f w) (structured : d.Structured) (valid : d.Valid)
    (flow : d.flow = .ok f) (next : Walk.Next d f w w') : Sound d f w' := by
  cases next with
  | leave idle waits => exact sound.leave structured valid flow idle waits
  | again first reached => exact sound.again structured first reached
  | known first fresh calls found => exact sound.known structured valid flow first fresh calls found
  | enter first fresh calls absent => exact sound.enter structured valid first fresh calls absent
  | ret first fresh back floor same => exact sound.ret structured first fresh back floor same
  | move first fresh here ordinary stays floor added =>
      exact sound.move structured first fresh here ordinary stays floor added

/-- A position at which the walk starts is in the main part. -/
theorem part_of_root (valid : d.Valid) (flow : d.flow = .ok f) (root : (i, x) ∈ roots f) :
    d.Part none i := by
  rcases List.mem_append.mp root with entry | start
  · obtain ⟨g, member, same⟩ := List.mem_map.mp (List.mem_reverse.mp entry)
    cases same
    obtain ⟨h, found, -, -, there⟩ := handler_of_guard valid flow member
    exact .handler found there
  · split at start
    · rename_i inside
      cases List.mem_singleton.mp start
      exact .start (size_flow flow ▸ inside)
    · cases start

theorem not_reached_start {j : Nat} {y : Int} : ¬ (start f).Reached j y := by
  intro reached
  rw [Walk.Reached, start, Array.getElem?_replicate] at reached
  split at reached <;> cases reached

theorem sound_start (valid : d.Valid) (flow : d.flow = .ok f) : Sound d f (start f) := by
  have unknown : ∀ {t : Nat} {s : Subroutine}, ¬ (start f).Known t s := by
    intro t s found
    rw [Walk.Known, start, Array.getElem?_replicate] at found
    split at found <;> cases found
  refine ⟨?_, ?_, ⟨part_of_root valid flow, nofun, ?_⟩, .inr, .nil, ?_, nofun, ?_⟩
  · exact Array.size_replicate.trans (size_flow flow)
  · exact Array.size_replicate.trans (size_flow flow)
  · exact fun reached => absurd reached not_reached_start
  · exact fun settled => absurd settled.1 unknown
  · exact fun reached => absurd reached not_reached_start

theorem done_of_step {deepest : Int} (h : w.step f = .done deepest) :
    w.frame.work = [] ∧ w.callers = [] ∧ w.deepest = deepest := by
  unfold Walk.step at h
  cases first : w.frame.work with
  | nil =>
      rw [first] at h
      cases waits : w.callers with
      | nil =>
          rw [waits] at h
          cases h
          exact ⟨rfl, rfl, rfl⟩
      | cons c callers =>
          rw [waits] at h
          cases h
  | cons item work =>
      rw [first] at h
      dsimp only at h
      split at h
      · split at h <;> cases h
      · unfold Walk.visit Walk.giveBack at h
        dsimp only at h
        repeat' split at h
        all_goals cases h
      · cases h

/-- A walk that comes to its end has served all it has reached. -/
theorem Sound.run (sound : Sound d f w) (structured : d.Structured) (valid : d.Valid)
    (flow : d.flow = .ok f) {deepest : Int} (h : w.run f = .ok deepest) :
    ∃ w', Sound d f w' ∧ w'.frame.work = [] ∧ w'.callers = [] ∧ w'.deepest = deepest := by
  induction w using Walk.run.induct f with
  | case1 w w' step _ ih =>
      have next := next_of_step valid flow sound.depths_size sound.subroutines_size
        (fun i x member => (sound.walked.work member).inside) step
      rw [Walk.run] at h
      split at h <;> rename_i stepped <;> cases step.symm.trans stepped
      exact ih (sound.next structured valid flow next) h
  | case2 w last step =>
      rw [Walk.run] at h
      split at h <;> rename_i stepped <;> cases step.symm.trans stepped
      cases h
      exact ⟨w, sound, done_of_step step⟩
  | case3 w fault step =>
      rw [Walk.run] at h
      split at h <;> rename_i stepped <;> cases step.symm.trans stepped
      cases h

end Preservation

section Ending

variable {d : Draft} {f : Flow} {w : Walk}

namespace Walk

/-- Depth on entry to a position. -/
def depth (w : Walk) (i : Nat) : Int := (w.depths.getD i none).getD 0

/-- The frame and the greatest depth with which the walk of a part has ended. -/
def ending (w : Walk) : Option Nat → Frame × Int
  | none => (w.frame, w.deepest)
  | some t =>
    match w.subroutines.getD t none with
    | none => (⟨[], none⟩, 0)
    | some s => (⟨[], s.net.map (· + (w.depth t - 1))⟩, w.depth t - 1 + s.excess)

theorem Reached.depth {i : Nat} {x : Int} (reached : w.Reached i x) : w.depth i = x := by
  rw [Walk.depth, Array.getD_eq_getD_getElem?, reached]
  rfl

theorem Known.ending {t : Nat} {s : Subroutine} (known : w.Known t s) :
    w.ending (some t) =
      (⟨[], s.net.map (· + (w.depth t - 1))⟩, w.depth t - 1 + s.excess) := by
  rw [Walk.ending, Array.getD_eq_getD_getElem?, known]
  rfl

end Walk

/-- The walk of every part of which something was reached has come to its end. -/
theorem Sound.walked_ending (sound : Sound d f w) (done : w.frame.work = [])
    (alone : w.callers = []) {part : Option Nat} {i : Nat} {x : Int} (reached : w.Reached i x)
    (here : d.Part part i) :
    (w.ending part).1.work = [] ∧ Walked d w part (w.ending part).1 (w.ending part).2 none := by
  cases part with
  | none =>
      have walked := sound.walked
      rw [alone] at walked
      exact ⟨done, walked⟩
  | some t =>
      obtain ⟨s, known⟩ := sound.entered reached here
      obtain ⟨base, entry, walked⟩ := sound.settled ⟨known, by rw [alone]; exact List.not_mem_nil⟩
      rw [known.ending, entry.depth, Int.add_sub_cancel]
      exact ⟨rfl, walked⟩

theorem Sound.served_ending (sound : Sound d f w) (done : w.frame.work = [])
    (alone : w.callers = []) {part : Option Nat} {i : Nat} {x : Int} (reached : w.Reached i x)
    (here : d.Part part i) :
    (w.ending part).1.work = [] ∧
      Served d w (w.ending part).1 (w.ending part).2 none i x := by
  obtain ⟨idle, walked⟩ := sound.walked_ending done alone reached here
  exact ⟨idle, walked.served reached here⟩

theorem Walk.Due.reached {work : List (Nat × Int)} {i : Nat} {x : Int} (due : w.Due work i x)
    (idle : work = []) : w.Reached i x := by
  rcases due with reached | waiting
  · exact reached
  · rw [idle] at waiting
    cases waiting

theorem Sound.reached_start (sound : Sound d f w) (flow : d.flow = .ok f)
    (done : w.frame.work = []) (alone : w.callers = []) (inside : 0 < d.order.toList.length) :
    w.Reached 0 0 := by
  have begun := sound.begun
  rw [alone] at begun
  refine (begun ?_).reached done
  rw [roots, size_flow flow, if_pos inside]
  exact List.mem_append_right _ (List.mem_singleton_self _)

theorem Sound.reached_handler (sound : Sound d f w) (valid : d.Valid) (flow : d.flow = .ok f)
    (done : w.frame.work = []) (alone : w.callers = []) {h : Handler} (member : h ∈ d.handlers)
    {i : Nat} (there : d.PlacedAt h.entry i) : w.Reached i 1 := by
  have begun := sound.begun
  rw [alone] at begun
  refine (begun ?_).reached done
  obtain ⟨g, found, -, -, entry⟩ := guard_of_handler valid flow member
  refine List.mem_append_left _ (List.mem_reverse.mpr (List.mem_map.mpr ⟨g, found, ?_⟩))
  rw [entry.unique valid there]

/-- The call of a subroutine that may return is left behind. -/
theorem Sound.reached_behind (sound : Sound d f w) (done : w.frame.work = [])
    (alone : w.callers = []) {part : Option Nat} {i t r : Nat} {x y : Int}
    (reached : w.Reached i x) (here : d.Part part i) (calls : d.Calls i t)
    (returned : w.Reached r y) (last : d.Part (some t) r) (back : d.Returns r)
    (inside : i + 1 < d.order.toList.length) :
    w.Reached (i + 1) (x + 1 + (y - w.depth t)) := by
  obtain ⟨idle, served⟩ := sound.served_ending done alone reached here
  obtain ⟨-, inner⟩ := sound.served_ending done alone returned last
  rcases served.call calls with waiting | ⟨s, settled, -, behind⟩
  · cases waiting
  · have gives := inner.ret back
    rw [settled.1.ending] at gives
    obtain ⟨net, found, rfl⟩ := Option.map_eq_some_iff.mp gives
    have due := (behind net found inside).reached idle
    have same : x + 1 + (net + (w.depth t - 1) - w.depth t) = x + net := by omega
    rwa [same]

/-- All that control comes to was reached. -/
theorem Sound.reached_of_part (sound : Sound d f w) (valid : d.Valid) (flow : d.flow = .ok f)
    (done : w.frame.work = []) (alone : w.callers = []) {part : Option Nat} {i : Nat}
    (here : d.Part part i) : ∃ x, w.Reached i x := by
  induction here with
  | start inside => exact ⟨0, sound.reached_start flow done alone inside⟩
  | handler member there => exact ⟨1, sound.reached_handler valid flow done alone member there⟩
  | move here moves inside ih =>
      obtain ⟨x, reached⟩ := ih
      obtain ⟨idle, served⟩ := sound.served_ending done alone reached here
      exact ⟨_, ((served.move moves).2 inside).reached idle⟩
  | enter here calls ih =>
      obtain ⟨x, reached⟩ := ih
      obtain ⟨-, served⟩ := sound.served_ending done alone reached here
      rcases served.call calls with waiting | ⟨s, settled, -⟩
      · cases waiting
      · obtain ⟨base, entry, -⟩ := sound.settled settled
        exact ⟨_, entry⟩
  | resume here calls last back inside ihHere ihLast =>
      obtain ⟨x, reached⟩ := ihHere
      obtain ⟨y, returned⟩ := ihLast
      exact ⟨_, sound.reached_behind done alone reached here calls returned last back inside⟩

/-- The depths that a walk has found gauge the draft. -/
theorem Sound.gauge (sound : Sound d f w) (valid : d.Valid) (flow : d.flow = .ok f)
    (done : w.frame.work = []) (alone : w.callers = []) :
    d.Gauge w.depth (fun part => (w.ending part).2) := by
  have found := fun {part i} (here : d.Part part i) =>
    sound.reached_of_part valid flow done alone here
  refine ⟨?_, ?_, ?_, ?_, ?_, ?_, ?_⟩
  · by_cases inside : 0 < d.order.toList.length
    · exact (sound.reached_start flow done alone inside).depth
    · have outside : w.depths[0]? = none := by
        rw [Array.getElem?_eq_none_iff, sound.depths_size]
        exact Nat.not_lt.mp inside
      rw [Walk.depth, Array.getD_eq_getD_getElem?, outside]
      rfl
  · intro h i member there
    exact (sound.reached_handler valid flow done alone member there).depth
  · intro part i here
    obtain ⟨x, reached⟩ := found here
    rw [reached.depth]
    exact (sound.served_ending done alone reached here).2.le_top
  · intro part i ins here at_i ordinary
    obtain ⟨x, reached⟩ := found here
    rw [reached.depth]
    exact (sound.served_ending done alone reached here).2.floor at_i ordinary
  · intro part i growth j here moves
    obtain ⟨x, reached⟩ := found here
    obtain ⟨idle, served⟩ := sound.served_ending done alone reached here
    rw [reached.depth]
    exact ⟨(served.move moves).1, fun inside => ((served.move moves).2 inside).reached idle |>.depth⟩
  · intro part i t here calls
    obtain ⟨x, reached⟩ := found here
    obtain ⟨-, served⟩ := sound.served_ending done alone reached here
    rcases served.call calls with waiting | ⟨s, settled, le, -⟩
    · cases waiting
    · rw [reached.depth, settled.1.ending]
      dsimp only
      omega
  · intro part i t r here calls last back inside
    obtain ⟨x, reached⟩ := found here
    obtain ⟨y, returned⟩ := found last
    rw [reached.depth, returned.depth]
    exact (sound.reached_behind done alone reached here calls returned last back inside).depth

end Ending

end JvmAssembly.StackDepth

namespace JvmAssembly

theorem Flow.maxStack_eq_ok {f : Flow} {m : UInt16} :
    f.maxStack = .ok m ↔ ∃ deepest, (StackDepth.start f).run f = .ok deepest ∧
      deepest ≤ 65535 ∧ m.toNat = deepest.toNat := by
  unfold Flow.maxStack
  constructor
  · intro h
    split at h
    · cases h
    · rename_i deepest ends
      split at h
      · cases h
      · rename_i fits
        cases h
        refine ⟨deepest, ends, Int.not_lt.mp fits, UInt16.toNat_ofNat_of_lt' ?_⟩
        simp only [UInt16.size]
        omega
  · rintro ⟨deepest, ends, fits, same⟩
    rw [ends]
    dsimp only
    rw [if_neg (Int.not_lt.mpr fits), ← same, UInt16.ofNat_toNat]

namespace Draft

open StackDepth

variable {d : Draft} {f : Flow} {m : UInt16}

theorem exists_gauge (valid : d.Valid) (structured : d.Structured) (flow : d.flow = .ok f)
    (measured : f.maxStack = .ok m) :
    ∃ depth top, d.Gauge depth top ∧ top none ≤ (m.toNat : Int) := by
  obtain ⟨deepest, ends, -, same⟩ := Flow.maxStack_eq_ok.mp measured
  obtain ⟨w, sound, done, alone, rfl⟩ :=
    (sound_start valid flow).run structured valid flow ends
  exact ⟨_, _, sound.gauge valid flow done alone, same ▸ Int.self_le_toNat _⟩

/-- In a structured draft no configuration that control comes to from the first position, with
subroutines called and left as they are, is deeper than the greatest depth that was found. -/
theorem depth_le_maxStack (reachable : d.Reachable) (structured : d.Structured)
    (flow : d.flow = .ok f) (measured : f.maxStack = .ok m) {c : Configuration}
    (run : Relation.ReflTransGen d.Step ⟨0, 0, []⟩ c) : c.depth ≤ (m.toNat : Int) := by
  obtain ⟨depth, top, gauge, le⟩ := exists_gauge reachable.valid structured flow measured
  exact gauge.depth_le (Int.natCast_nonneg _) le run

/-- A subroutine that is called at two depths and calls another, which the main part calls too. -/
def nesting : Draft :=
  let d := (empty 0).createLocal none (.object .object) none
    |>.2.createLocal none (.object .object) none |>.2.createLabel.2.createLabel.2
  let d := (push (.branch Opcode.jsr ⟨0, 0⟩) d).2
  let d := (push (.simple Opcode.iconst_0) d).2
  let d := (push (.branch Opcode.jsr ⟨0, 0⟩) d).2
  let d := (push (.branch Opcode.jsr ⟨0, 1⟩) d).2
  let d := (push (.simple Opcode.returnVoid) d).2
  let d := (placeLabel ⟨0, 0⟩ d).2
  let d := (push (.store ⟨0, 0⟩ .reference false) d).2
  let d := (push (.simple Opcode.iconst_0) d).2
  let d := (push (.branch Opcode.jsr ⟨0, 1⟩) d).2
  let d := (push (.simple Opcode.pop) d).2
  let d := (push (.ret ⟨0, 0⟩) d).2
  let d := (placeLabel ⟨0, 1⟩ d).2
  let d := (push (.store ⟨0, 1⟩ .reference false) d).2
  (push (.ret ⟨0, 1⟩) d).2

theorem reachable_nesting : nesting.Reachable :=
  ((((((((((((((((Reachable.empty 0).createLocal none _ none).createLocal none _
    none).createLabel.createLabel.push _).push _).push _).push _).push _).placeLabel _).push _).push
    _).push _).push _).push _).placeLabel _).push _).push _

/-- Two subroutines that end in one return. -/
def sharing : Draft :=
  let d := (empty 0).createLocal none (.object .object) none
    |>.2.createLabel.2.createLabel.2.createLabel.2
  let d := (push (.branch Opcode.jsr ⟨0, 0⟩) d).2
  let d := (push (.branch Opcode.jsr ⟨0, 1⟩) d).2
  let d := (push (.simple Opcode.iconst_0) d).2
  let d := (push (.simple Opcode.iconst_0) d).2
  let d := (push (.simple Opcode.returnVoid) d).2
  let d := (placeLabel ⟨0, 0⟩ d).2
  let d := (push (.store ⟨0, 0⟩ .reference false) d).2
  let d := (placeLabel ⟨0, 2⟩ d).2
  let d := (push (.ret ⟨0, 0⟩) d).2
  let d := (placeLabel ⟨0, 1⟩ d).2
  let d := (push (.store ⟨0, 0⟩ .reference false) d).2
  (push (.branch Opcode.goto ⟨0, 2⟩) d).2

theorem reachable_sharing : sharing.Reachable :=
  (((((((((((((Reachable.empty 0).createLocal none _
    none).createLabel.createLabel.createLabel.push _).push _).push _).push _).push _).placeLabel
    _).push _).placeLabel _).push _).placeLabel _).push _).push _

/-- A subroutine that calls itself. -/
def recursing : Draft :=
  let d := (push (.branch Opcode.jsr ⟨0, 0⟩) (empty 0).createLabel.2).2
  let d := (push (.simple Opcode.returnVoid) d).2
  let d := (placeLabel ⟨0, 0⟩ d).2
  (push (.branch Opcode.jsr ⟨0, 0⟩) d).2

theorem reachable_recursing : recursing.Reachable :=
  ((((Reachable.empty 0).createLabel.push _).push _).placeLabel _).push _

/-- The greatest depth of a draft, as far as it can be evaluated. -/
theorem exists_maxStack {d : Draft} (n : Nat) {m : UInt16}
    (h : (d.flow.toOption.bind fun f => f.maxStackWithin n).bind (·.toOption) = some m) :
    ∃ f, d.flow = .ok f ∧ f.maxStack = .ok m := by
  cases flow : d.flow with
  | error fault =>
      rw [flow] at h
      cases h
  | ok f =>
      rw [flow] at h
      obtain ⟨r, walked, same⟩ := Option.bind_eq_some_iff.mp h
      cases r with
      | error fault => cases same
      | ok depth =>
          cases same
          exact ⟨f, rfl, Flow.maxStack_of_within walked⟩

/-- Where subroutines share a return or call themselves, control comes to greater depths than the
one that was found. -/
theorem depth_gt_maxStack_sharing_recursing :
    (sharing.Reachable ∧ ∃ f, sharing.flow = .ok f ∧ f.maxStack = .ok 1 ∧
      Relation.ReflTransGen sharing.Step ⟨0, 0, []⟩ ⟨4, 2, []⟩) ∧
    (recursing.Reachable ∧ ∃ f, recursing.flow = .ok f ∧ f.maxStack = .ok 2 ∧
      Relation.ReflTransGen recursing.Step ⟨0, 0, []⟩ ⟨2, 3, [4, 4, 1]⟩) := by
  obtain ⟨f, flow, measured⟩ : ∃ f, sharing.flow = .ok f ∧ f.maxStack = .ok 1 :=
    exists_maxStack 40 (by decide +kernel)
  obtain ⟨g, flow', measured'⟩ : ∃ f, recursing.flow = .ok f ∧ f.maxStack = .ok 2 :=
    exists_maxStack 20 (by decide +kernel)
  refine ⟨⟨reachable_sharing, f, flow, measured, ?_⟩, reachable_recursing, g, flow', measured', ?_⟩
  · have first : sharing.Calls 0 5 := ⟨_, ⟨0, 0⟩, rfl, rfl, List.mem_singleton_self _, rfl, rfl⟩
    have second : sharing.Calls 1 9 := ⟨_, ⟨0, 1⟩, rfl, rfl, List.mem_singleton_self _, rfl, rfl⟩
    have leave : ∀ j, Relation.ReflTransGen sharing.Step ⟨7, 0, [j]⟩ ⟨j, 0, []⟩ :=
      fun j => .head (.move (.next rfl rfl rfl)) (.single (.ret ⟨_, rfl⟩))
    have one : Relation.ReflTransGen sharing.Step ⟨0, 0, []⟩ ⟨1, 0, []⟩ :=
      .head (.call first) (.head (.move (.next rfl rfl rfl))
        (.head (.move (.next rfl rfl rfl)) (leave 1)))
    have two : Relation.ReflTransGen sharing.Step ⟨1, 0, []⟩ ⟨2, 0, []⟩ :=
      .head (.call second) (.head (.move (.next rfl rfl rfl)) (.head (.move (.next rfl rfl rfl))
        (.head (.move (.jump rfl rfl (List.mem_singleton_self _) ⟨rfl, rfl⟩)) (leave 2))))
    exact (one.trans two).trans
      (.head (.move (.next rfl rfl rfl)) (.head (.move (.next rfl rfl rfl)) .refl))
  · have outer : recursing.Calls 0 2 := ⟨_, ⟨0, 0⟩, rfl, rfl, List.mem_singleton_self _, rfl, rfl⟩
    have inner : recursing.Calls 3 2 := ⟨_, ⟨0, 0⟩, rfl, rfl, List.mem_singleton_self _, rfl, rfl⟩
    exact .head (.call outer) (.head (.move (.next rfl rfl rfl)) (.head (.call inner)
      (.head (.move (.next rfl rfl rfl)) (.single (.call inner)))))

/-- The parts of the positions of `nesting`. -/
def nestingParts (i : Nat) : Option Nat :=
  if i < 5 then none else if i < 11 then some 5 else some 11

theorem depth_le_maxStack_nesting :
    nesting.Reachable ∧ nesting.Structured ∧ ∃ f, nesting.flow = .ok f ∧ f.maxStack = .ok 3 ∧
      Relation.ReflTransGen nesting.Step ⟨0, 0, []⟩ ⟨11, 3, [9, 3]⟩ ∧
      ∀ c, Relation.ReflTransGen nesting.Step ⟨0, 0, []⟩ c → c.depth ≤ 3 := by
  obtain ⟨f, flow, measured⟩ : ∃ f, nesting.flow = .ok f ∧ f.maxStack = .ok 3 :=
    exists_maxStack 60 (by decide +kernel)
  have divided : f.divided nestingParts = true := by
    have computed : nesting.flow.toOption.map (·.divided nestingParts) = some true := by
      decide +kernel
    rw [flow] at computed
    exact Option.some.inj computed
  have structured := structured_of_divided reachable_nesting.valid flow divided
  refine ⟨reachable_nesting, structured, f, flow, measured, ?_,
    fun c run => depth_le_maxStack reachable_nesting structured flow measured run⟩
  have outer : nesting.Calls 0 5 := ⟨_, ⟨0, 0⟩, rfl, rfl, List.mem_singleton_self _, rfl, rfl⟩
  have again : nesting.Calls 2 5 := ⟨_, ⟨0, 0⟩, rfl, rfl, List.mem_singleton_self _, rfl, rfl⟩
  have inner : nesting.Calls 8 11 := ⟨_, ⟨0, 1⟩, rfl, rfl, List.mem_singleton_self _, rfl, rfl⟩
  have down : ∀ x j, Relation.ReflTransGen nesting.Step ⟨5, x, [j]⟩
      ⟨11, x + 0 - 1 + 1 + 1, [9, j]⟩ :=
    fun x j => .head (.move (.next rfl rfl rfl)) (.head (.move (.next rfl rfl rfl))
      (.head (.move (.next rfl rfl rfl)) (.single (.call inner))))
  have up : Relation.ReflTransGen nesting.Step ⟨11, 2, [9, 1]⟩ ⟨1, 0, []⟩ :=
    .head (.move (.next rfl rfl rfl)) (.head (.move (.next rfl rfl rfl)) (.head (.ret ⟨_, rfl⟩)
      (.head (.move (.next rfl rfl rfl)) (.head (.ret ⟨_, rfl⟩) .refl))))
  exact (Relation.ReflTransGen.head (.call outer) ((down 1 1).trans up)).trans
    (.head (.move (.next rfl rfl rfl)) (.head (.call again) (down 2 3)))

end Draft

end JvmAssembly
