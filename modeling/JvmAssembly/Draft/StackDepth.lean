import JvmAssembly.Draft.Flow

/-!
The greatest depth of the operand stack. Every position is reached at one depth: zero at the start
of the method, one at the entry of a handler, and from there as instructions move it.

A subroutine is walked when it is first called, with the return address on the stack; what it does
to the depth then holds for all of its calls. One that does not return ends the path of its calls.
-/
namespace JvmAssembly

namespace StackDepth

/-- The greatest depth that can be counted. -/
def depthLimit : Int := 0x7fffffff

/-- Effect of a subroutine relative to the depth at its call. -/
structure Subroutine where
  /-- Depth on return; none while it is being walked and if it never returns. -/
  net : Option Int
  /-- Greatest depth inside. -/
  excess : Int

/-- Positions still to visit, with their depths, and the depth of a return met so far. -/
structure Frame where
  work : List (Nat × Int)
  returned : Option Int

/-- A walk that waits for the subroutine it has called. -/
structure Caller where
  frame : Frame
  /-- Position of the call. -/
  position : Nat
  depth : Int
  /-- Position at which the subroutine starts. -/
  entry : Nat
  /-- Greatest depth before the subroutine was entered. -/
  deepest : Int

structure Walk where
  /-- Depth on entry to each position that was reached. -/
  depths : Array (Option Int)
  deepest : Int
  /-- Subroutines by the position of their entry. -/
  subroutines : Array (Option Subroutine)
  frame : Frame
  callers : List Caller

inductive Outcome where
  | next (w : Walk)
  | done (deepest : Int)
  | stop (fault : Fault)

namespace Walk

def unreached (w : Walk) : Nat := w.depths.countP (·.isNone)

def pending (w : Walk) : Nat :=
  w.frame.work.length + w.callers.foldr (fun c n => c.frame.work.length + 2 + n) 0

/-- The walk goes on after a call, if the subroutine returns. -/
def resume (f : Flow) (w : Walk) (frame : Frame) (position : Nat) (depth : Int) (s : Subroutine) :
    Walk :=
  let work :=
    match s.net with
    | some net =>
      if position + 1 < f.size then (position + 1, depth + net) :: frame.work else frame.work
    | none => frame.work
  { w with deepest := max w.deepest (depth + s.excess), frame := { frame with work } }

/-- The current subroutine has no work left: its effect is known now. -/
def leave (f : Flow) (w : Walk) (c : Caller) (callers : List Caller) : Walk :=
  let s : Subroutine := ⟨w.frame.returned.map (· - c.depth), w.deepest - c.depth⟩
  let w := { w with
    deepest := max w.deepest c.deepest
    subroutines := w.subroutines.setIfInBounds c.entry (some s)
    callers }
  w.resume f c.frame c.position c.depth s

/-- A call: the subroutine is known, or it is walked now. Until then it counts as one that does
not return. -/
def call (f : Flow) (w : Walk) (rest : Frame) (position : Nat) (depth : Int) (entry : Nat) : Walk :=
  match w.subroutines[entry]? with
  | some (some s) => w.resume f rest position depth s
  | _ =>
    { w with
      deepest := depth + 1
      subroutines := w.subroutines.setIfInBounds entry (some ⟨none, 1⟩)
      frame := ⟨[(entry, depth + 1)], none⟩
      callers := ⟨rest, position, depth, entry, w.deepest⟩ :: w.callers }

/-- A return, whose depth has to be that of the other returns of the subroutine. -/
def giveBack (w : Walk) (rest : Frame) (position : Nat) (depth : Int) : Outcome :=
  match rest.returned with
  | some expected =>
    if expected = depth then .next { w with frame := rest }
    else .stop (.inconsistentDepth position expected depth)
  | none => .next { w with frame := { rest with returned := some depth } }

/-- Visits a position that was not reached before. A depth past the limit is refused as one below
zero is. -/
def visit (f : Flow) (w : Walk) (rest : Frame) (position : Nat) (depth : Int) (p : Point) :
    Outcome :=
  let w := { w with
    depths := w.depths.setIfInBounds position (some depth)
    deepest := max w.deepest depth }
  if p.isCall then
    match p.targets with
    | entry :: _ => .next (w.call f rest position depth entry)
    | [] => .next { w with frame := rest }
  else
    let after := depth + p.adjustment
    if after < 0 || depthLimit < after then .stop (.stackUnderflow position)
    else
      let w := { w with deepest := max w.deepest after }
      if p.isRet then w.giveBack rest position after
      else
        let next :=
          if p.fallsThrough && decide (position + 1 < f.size) then [(position + 1, after)] else []
        let work := (p.targets.map fun t => (t, after)).reverse ++ next ++ rest.work
        .next { w with frame := { rest with work } }

/-- One step; the work that was added last comes first. -/
def step (f : Flow) (w : Walk) : Outcome :=
  match w.frame.work with
  | [] =>
    match w.callers with
    | [] => .done w.deepest
    | c :: callers => .next (w.leave f c callers)
  | (position, depth) :: work =>
    let rest := { w.frame with work }
    match w.depths[position]?, f.points[position]? with
    | some (some expected), _ =>
      if expected = depth then .next { w with frame := rest }
      else .stop (.inconsistentDepth position expected depth)
    | some none, some p => w.visit f rest position depth p
    | _, _ => .next { w with frame := rest }

theorem unreached_set {w : Walk} {i : Nat} {d : Int} (h : w.depths[i]? = some none) :
    (w.depths.setIfInBounds i (some d)).countP (·.isNone) < w.unreached := by
  obtain ⟨hi, hn⟩ := Array.getElem?_eq_some_iff.1 h
  have hpos : 0 < w.depths.countP (·.isNone) :=
    Array.countP_pos_iff.2 ⟨none, hn ▸ Array.getElem_mem hi, rfl⟩
  simp only [unreached, Array.setIfInBounds, hi, dif_pos, Array.countP_set, hn, Option.isNone_none,
    Option.isNone_some, if_true, Bool.false_eq_true, if_false]
  omega

theorem depths_call (f : Flow) (w : Walk) (rest : Frame) (position : Nat) (depth : Int)
    (entry : Nat) : (w.call f rest position depth entry).depths = w.depths := by
  unfold call
  split <;> rfl

theorem pending_resume_le (f : Flow) (w : Walk) (frame : Frame) (position : Nat) (depth : Int)
    (s : Subroutine) :
    (w.resume f frame position depth s).pending ≤
      frame.work.length + 1 + w.callers.foldr (fun c n => c.frame.work.length + 2 + n) 0 := by
  unfold resume pending
  simp only
  split
  · split <;> simp
  · simp

theorem depths_giveBack {w w' : Walk} {rest : Frame} {position : Nat} {depth : Int}
    (h : w.giveBack rest position depth = .next w') : w'.depths = w.depths := by
  unfold giveBack at h
  split at h
  · split at h
    · cases h
      rfl
    · cases h
  · cases h
    rfl

theorem depths_visit {f : Flow} {w w' : Walk} {rest : Frame} {position : Nat} {depth : Int}
    {p : Point} (h : w.visit f rest position depth p = .next w') :
    w'.depths = w.depths.setIfInBounds position (some depth) := by
  unfold visit at h
  simp only at h
  split at h
  · split at h
    · cases h
      exact depths_call ..
    · cases h
      rfl
  · split at h
    · cases h
    · split at h
      · exact depths_giveBack h
      · cases h
        rfl

/-- A step reaches a new position or leaves less work. -/
theorem step_decreases {f : Flow} {w w' : Walk} (h : w.step f = .next w') :
    w'.unreached < w.unreached ∨ (w'.unreached = w.unreached ∧ w'.pending < w.pending) := by
  unfold step at h
  split at h
  · rename_i hwork
    split at h
    · cases h
    · rename_i c callers hcallers
      cases h
      right
      refine ⟨rfl, ?_⟩
      unfold leave
      refine Nat.lt_of_le_of_lt (pending_resume_le ..) ?_
      simp only [pending, hwork, hcallers, List.foldr_cons, List.length_nil]
      omega
  · rename_i position depth work hwork
    have shrink : ({ w with frame := { w.frame with work } } : Walk).pending < w.pending := by
      simp only [pending, hwork, List.length_cons]
      omega
    simp only at h
    split at h
    · split at h
      · cases h
        exact .inr ⟨rfl, shrink⟩
      · cases h
    · rename_i hnone _
      left
      rw [unreached, depths_visit h]
      exact unreached_set hnone
    · cases h
      exact .inr ⟨rfl, shrink⟩

def run (f : Flow) (w : Walk) : Except Fault Int :=
  match h : w.step f with
  | .next w' =>
    have := step_decreases h
    run f w'
  | .done deepest => .ok deepest
  | .stop fault => .error fault
termination_by (w.unreached, w.pending)
decreasing_by
  rcases step_decreases h with hlt | ⟨heq, hlt⟩
  · exact Prod.Lex.left _ _ hlt
  · rw [heq]
    exact Prod.Lex.right _ hlt

end Walk

/-- The start of the method at depth zero and the handlers at depth one, the last on top. -/
def roots (f : Flow) : List (Nat × Int) :=
  (f.guards.map fun g => (g.entry, (1 : Int))).reverse ++ (if 0 < f.size then [(0, 0)] else [])

def start (f : Flow) : Walk where
  depths := Array.replicate f.size none
  deepest := 0
  subroutines := Array.replicate f.size none
  frame := ⟨roots f, none⟩
  callers := []

end StackDepth

def Flow.maxStack (f : Flow) : Except Fault UInt16 :=
  match (StackDepth.start f).run f with
  | .error fault => .error fault
  | .ok deepest =>
    if deepest > 65535 then .error (.maxStackOverflow deepest.toNat)
    else .ok (UInt16.ofNat deepest.toNat)

end JvmAssembly
