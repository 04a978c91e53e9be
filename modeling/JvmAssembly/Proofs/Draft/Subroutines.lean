import Mathlib
import JvmAssembly.Proofs.Draft.Flow

/-!
Subroutines at work: configurations with a stack of return positions and the steps between them.
A draft is structured if it falls into a main part and subroutines that share no instruction and do
not call themselves. A gauge gives each position of such a draft a depth, from which the depth in
any configuration follows by what the calls on its stack add.
-/
namespace JvmAssembly

theorem Instruction.fallsThrough_of_isSubroutineCall (x : Instruction)
    (call : x.isSubroutineCall = true) : x.fallsThrough = true := by
  cases x with
  | branch op target =>
      rw [isSubroutineCall, Opcode.isSubroutineCall, Bool.or_eq_true, beq_iff_eq, beq_iff_eq] at call
      rcases call with rfl | rfl <;> rfl
  | _ => cases call

namespace Draft

/-- A subroutine call and the position that it goes to. -/
def Calls (d : Draft) (i t : Nat) : Prop :=
  ∃ x label, d.at? i = some x ∧ x.isSubroutineCall = true ∧ label ∈ x.targets ∧
    d.PlacedAt label t

def Returns (d : Draft) (i : Nat) : Prop :=
  ∃ v, d.at? i = some (.ret v)

/-- Any other instruction, by how much the stack grows at it, and where control goes next. The
position behind the last instruction has none. -/
inductive Moves (d : Draft) (i : Nat) : Int → Nat → Prop
  | next {x : Instruction} (here : d.at? i = some x) (ordinary : x.isSubroutineCall = false)
      (falls : x.fallsThrough = true) : Moves d i x.adjustment (i + 1)
  | jump {x : Instruction} {label : Label} {j : Nat} (here : d.at? i = some x)
      (ordinary : x.isSubroutineCall = false) (member : label ∈ x.targets)
      (there : d.PlacedAt label j) : Moves d i x.adjustment j

structure Configuration where
  position : Nat
  depth : Int
  /-- Where the subroutines at work return to, the innermost first. -/
  returns : List Nat

inductive Step (d : Draft) : Configuration → Configuration → Prop
  | move {i j : Nat} {growth depth : Int} {returns : List Nat} (moves : d.Moves i growth j) :
      Step d ⟨i, depth, returns⟩ ⟨j, depth + growth, returns⟩
  | call {i t : Nat} {depth : Int} {returns : List Nat} (calls : d.Calls i t) :
      Step d ⟨i, depth, returns⟩ ⟨t, depth + 1, (i + 1) :: returns⟩
  | ret {i j : Nat} {depth : Int} {returns : List Nat} (back : d.Returns i) :
      Step d ⟨i, depth, j :: returns⟩ ⟨j, depth, returns⟩

/-- Positions that control comes to in the main part, which has the handlers, or in the subroutine
with the given entry. A call goes on behind it if the subroutine may return. -/
inductive Part (d : Draft) : Option Nat → Nat → Prop
  | start (inside : 0 < d.order.toList.length) : Part d none 0
  | handler {h : Handler} {i : Nat} (member : h ∈ d.handlers) (there : d.PlacedAt h.entry i) :
      Part d none i
  | move {s : Option Nat} {i j : Nat} {growth : Int} (here : Part d s i)
      (moves : d.Moves i growth j) (inside : j < d.order.toList.length) : Part d s j
  | enter {s : Option Nat} {i t : Nat} (here : Part d s i) (calls : d.Calls i t) :
      Part d (some t) t
  | resume {s : Option Nat} {i t r : Nat} (here : Part d s i) (calls : d.Calls i t)
      (last : Part d (some t) r) (back : d.Returns r) (inside : i + 1 < d.order.toList.length) :
      Part d s (i + 1)

/-- The first part calls the second. -/
inductive Nests (d : Draft) (s : Option Nat) : Option Nat → Prop
  | call {i t : Nat} (here : d.Part s i) (calls : d.Calls i t) : Nests d s (some t)

/-- No two parts share a position and no subroutine calls itself, directly or through others. -/
structure Structured (d : Draft) : Prop where
  separate : ∀ s s' i, d.Part s i → d.Part s' i → s = s'
  nonrecursive : ∀ s, ¬ Relation.TransGen d.Nests s s

variable {d : Draft}

theorem at?_eq_none {i : Nat} : d.at? i = none ↔ d.order.toList.length ≤ i := by
  rw [at?, Option.map_eq_none_iff, List.getElem?_eq_none_iff]

theorem exists_at? {i : Nat} : (∃ x, d.at? i = some x) ↔ i < d.order.toList.length := by
  rw [← Option.isSome_iff_exists, ← Option.ne_none_iff_isSome, Ne, at?_eq_none, Nat.not_le]

/-- A test of every position holds of every instruction. -/
theorem of_all_at? {test : Instruction → Bool}
    (all : ∀ i < d.order.toList.length, (d.at? i).all test = true) {i : Nat} {x : Instruction}
    (here : d.at? i = some x) : test x = true := by
  have passes := all i (exists_at?.mp ⟨x, here⟩)
  rwa [here, Option.all_some] at passes

theorem PlacedAt.inside {label : Label} {i : Nat} (there : d.PlacedAt label i) :
    i < d.order.toList.length :=
  (List.getElem?_eq_some_iff.mp there.2).1

theorem Moves.inside {i j : Nat} {growth : Int} (moves : d.Moves i growth j) :
    i < d.order.toList.length := by
  cases moves with
  | next here => exact exists_at?.mp ⟨_, here⟩
  | jump here => exact exists_at?.mp ⟨_, here⟩

theorem Moves.growth_eq {i j : Nat} {growth : Int} (moves : d.Moves i growth j)
    {x : Instruction} (here : d.at? i = some x) : growth = x.adjustment := by
  cases moves with
  | next here' => rw [Option.some.inj (here'.symm.trans here)]
  | jump here' => rw [Option.some.inj (here'.symm.trans here)]

theorem Calls.inside {i t : Nat} (calls : d.Calls i t) :
    i < d.order.toList.length ∧ t < d.order.toList.length := by
  obtain ⟨x, label, here, -, -, there⟩ := calls
  exact ⟨exists_at?.mp ⟨x, here⟩, there.inside⟩

theorem Returns.inside {i : Nat} (back : d.Returns i) : i < d.order.toList.length := by
  obtain ⟨v, here⟩ := back
  exact exists_at?.mp ⟨_, here⟩

theorem Part.inside {s : Option Nat} {i : Nat} (here : d.Part s i) :
    i < d.order.toList.length := by
  cases here with
  | start inside => exact inside
  | handler member there => exact there.inside
  | move here moves inside => exact inside
  | enter here calls => exact calls.inside.2
  | resume here calls last back inside => exact inside

/-- A call goes to one place. -/
theorem Calls.unique (valid : d.Valid) {i t u : Nat} (first : d.Calls i t)
    (second : d.Calls i u) : t = u := by
  obtain ⟨x, label, here, calls, member, there⟩ := first
  obtain ⟨x', label', here', -, member', there'⟩ := second
  cases here.symm.trans here'
  cases x with
  | branch op target =>
      rw [Instruction.targets, List.mem_singleton] at member member'
      subst member member'
      exact there.unique valid there'
  | _ => cases calls

/-- Depths for the positions of each part, and the greatest depth in it. All that counts for a
subroutine is how they differ from the depth at its entry. -/
structure Gauge (d : Draft) (depth : Nat → Int) (top : Option Nat → Int) : Prop where
  start : depth 0 = 0
  handler : ∀ {h i}, h ∈ d.handlers → d.PlacedAt h.entry i → depth i = 1
  le_top : ∀ {s i}, d.Part s i → depth i ≤ top s
  floor : ∀ {s i x}, d.Part s i → d.at? i = some x → x.isSubroutineCall = false →
    0 ≤ depth i + x.adjustment
  move : ∀ {s i growth j}, d.Part s i → d.Moves i growth j →
    depth i + growth ≤ top s ∧ (j < d.order.toList.length → depth j = depth i + growth)
  call : ∀ {s i t}, d.Part s i → d.Calls i t → depth i + 1 + (top (some t) - depth t) ≤ top s
  resume : ∀ {s i t r}, d.Part s i → d.Calls i t → d.Part (some t) r → d.Returns r →
    i + 1 < d.order.toList.length → depth (i + 1) = depth i + 1 + (depth r - depth t)

/-- The calls that led into a part, by the positions that they return to and by what they add to
the depths there. -/
inductive Context (d : Draft) (depth : Nat → Int) : Option Nat → Int → List Nat → Prop
  | main : Context d depth none 0 []
  | call {s : Option Nat} {shift : Int} {returns : List Nat} {i t : Nat}
      (outer : Context d depth s shift returns) (here : d.Part s i) (calls : d.Calls i t) :
      Context d depth (some t) (shift + depth i + 1 - depth t) ((i + 1) :: returns)

/-- A configuration has the depth that the gauge and the calls on its stack give it, unless control
ran past the last instruction. -/
inductive Agrees (d : Draft) (depth : Nat → Int) (bound : Int) : Configuration → Prop
  | inside {s : Option Nat} {shift : Int} {returns : List Nat} {i : Nat}
      (context : Context d depth s shift returns) (here : d.Part s i) :
      Agrees d depth bound ⟨i, depth i + shift, returns⟩
  | past {i : Nat} {x : Int} {returns : List Nat} (outside : d.order.toList.length ≤ i)
      (le : x ≤ bound) : Agrees d depth bound ⟨i, x, returns⟩

namespace Gauge

variable {depth : Nat → Int} {top : Option Nat → Int}

theorem context_le (gauge : d.Gauge depth top) {s : Option Nat} {shift : Int}
    {returns : List Nat} (context : Context d depth s shift returns) :
    top s + shift ≤ top none := by
  induction context with
  | main => rw [Int.add_zero]
  | call outer here calls ih =>
      have grown := gauge.call here calls
      omega

theorem agrees_step (gauge : d.Gauge depth top) {bound : Int} (main : top none ≤ bound)
    {c c' : Configuration} (agrees : d.Agrees depth bound c) (step : d.Step c c') :
    d.Agrees depth bound c' := by
  cases agrees with
  | past outside le =>
      cases step with
      | move moves => exact absurd moves.inside (Nat.not_lt.mpr outside)
      | call calls => exact absurd calls.inside.1 (Nat.not_lt.mpr outside)
      | ret back => exact absurd back.inside (Nat.not_lt.mpr outside)
  | inside context here =>
      rename_i s shift returns i
      have bounded := gauge.context_le context
      cases step with
      | move moves =>
          rename_i j growth
          obtain ⟨le, moved⟩ := gauge.move here moves
          by_cases inside : j < d.order.toList.length
          · rw [Int.add_right_comm, ← moved inside]
            exact .inside context (.move here moves inside)
          · exact .past (Nat.not_lt.mp inside) (by omega)
      | call calls =>
          rename_i t
          have same : depth i + shift + 1 = depth t + (shift + depth i + 1 - depth t) := by omega
          rw [same]
          exact .inside (.call context here calls) (.enter here calls)
      | ret back =>
          cases context with
          | call outer called calls =>
              rename_i s shift k t
              by_cases inside : k + 1 < d.order.toList.length
              · have same : depth i + (shift + depth k + 1 - depth t) = depth (k + 1) + shift := by
                  rw [gauge.resume called calls here back inside]
                  omega
                rw [same]
                exact .inside outer (.resume called calls here back inside)
              · have le := gauge.le_top here
                exact .past (Nat.not_lt.mp inside) (by omega)

/-- No configuration that control comes to is deeper than the main part may be. -/
theorem depth_le (gauge : d.Gauge depth top) {bound : Int} (nonneg : 0 ≤ bound)
    (main : top none ≤ bound) {c : Configuration}
    (run : Relation.ReflTransGen d.Step ⟨0, 0, []⟩ c) : c.depth ≤ bound := by
  have agrees : d.Agrees depth bound c := by
    induction run with
    | refl =>
        by_cases inside : 0 < d.order.toList.length
        · have first : d.Agrees depth bound ⟨0, depth 0 + 0, []⟩ := .inside .main (.start inside)
          rwa [gauge.start] at first
        · exact .past (Nat.not_lt.mp inside) nonneg
    | tail _ step ih => exact gauge.agrees_step main ih step
  cases agrees with
  | past outside le => exact le
  | inside context here =>
      have bounded := gauge.context_le context
      have le := gauge.le_top here
      dsimp only
      omega

end Gauge

end Draft

/-- The positions are divided among the main part and subroutines. Control stays within a part but
for calls, and subroutines call only those that come after them. -/
def Flow.divided (f : Flow) (part : Nat → Option Nat) : Bool :=
  part 0 == none && f.guards.all (fun g => part g.entry == none) &&
    (List.range f.size).all fun i => (f.points[i]?).all fun p =>
      (!p.fallsThrough || part (i + 1) == part i) &&
        p.targets.all fun t =>
          if p.isCall then part t == some t && (part i).all (fun s => decide (s < t))
          else part t == part i

namespace Draft

variable {d : Draft} {f : Flow} {part : Nat → Option Nat}

theorem divided_point (divided : f.divided part = true) {i : Nat} {p : Point}
    (found : f.points[i]? = some p) :
    (p.fallsThrough = true → part (i + 1) = part i) ∧ ∀ t ∈ p.targets,
      if p.isCall then part t = some t ∧ ∀ s, part i = some s → s < t else part t = part i := by
  simp only [Flow.divided, Bool.and_eq_true, List.all_eq_true, List.mem_range] at divided
  have inside : i < f.size := (Array.getElem?_eq_some_iff.mp found).1
  have here := divided.2 i inside
  rw [found, Option.all_some, Bool.and_eq_true, Bool.or_eq_true, Bool.not_eq_true', beq_iff_eq,
    List.all_eq_true] at here
  refine ⟨fun falls => here.1.resolve_left (by simp [falls]), ?_⟩
  intro t member
  have there := here.2 t member
  cases call : p.isCall with
  | true =>
      rw [call, if_pos rfl, Bool.and_eq_true, beq_iff_eq] at there
      rw [if_pos rfl]
      refine ⟨there.1, ?_⟩
      intro s same
      rw [same, Option.all_some, decide_eq_true_eq] at there
      exact there.2
  | false =>
      rw [call, if_neg Bool.false_ne_true, beq_iff_eq] at there
      rwa [if_neg Bool.false_ne_true]

theorem divided_move (valid : d.Valid) (flow : d.flow = .ok f) (divided : f.divided part = true)
    {i j : Nat} {growth : Int} (moves : d.Moves i growth j) : part j = part i := by
  cases moves with
  | next here ordinary falls =>
      obtain ⟨p, found, described⟩ := flow_point valid flow here
      exact (divided_point divided found).1 (described.fallsThrough.trans falls)
  | jump here ordinary member there =>
      obtain ⟨p, found, described⟩ := flow_point valid flow here
      have target := (divided_point divided found).2 j (described.mem_targets valid member there)
      rwa [described.isCall, ordinary, if_neg Bool.false_ne_true] at target

theorem divided_call (valid : d.Valid) (flow : d.flow = .ok f) (divided : f.divided part = true)
    {i t : Nat} (calls : d.Calls i t) :
    part (i + 1) = part i ∧ part t = some t ∧ ∀ s, part i = some s → s < t := by
  obtain ⟨x, label, here, call, member, there⟩ := calls
  obtain ⟨p, found, described⟩ := flow_point valid flow here
  obtain ⟨behind, targets⟩ := divided_point divided found
  have target := targets t (described.mem_targets valid member there)
  rw [described.isCall, call, if_pos rfl] at target
  exact ⟨behind (described.fallsThrough.trans (x.fallsThrough_of_isSubroutineCall call)), target⟩

theorem part_of_divided (valid : d.Valid) (flow : d.flow = .ok f)
    (divided : f.divided part = true) {s : Option Nat} {i : Nat} (here : d.Part s i) :
    part i = s := by
  induction here with
  | start inside =>
      simp only [Flow.divided, Bool.and_eq_true, beq_iff_eq] at divided
      exact divided.1.1
  | handler member there =>
      rename_i h i
      simp only [Flow.divided, Bool.and_eq_true, List.all_eq_true, beq_iff_eq] at divided
      obtain ⟨g, found, -, -, entry⟩ := guard_of_handler valid flow member
      rw [there.unique valid entry]
      exact divided.1.2 g found
  | move here moves inside ih => exact (divided_move valid flow divided moves).trans ih
  | enter here calls ih => exact (divided_call valid flow divided calls).2.1
  | resume here calls last back inside ih =>
      exact (divided_call valid flow divided calls).1.trans ih

/-- Calls from one part lead on to later ones only. -/
theorem nests_of_divided (valid : d.Valid) (flow : d.flow = .ok f)
    (divided : f.divided part = true) {s s' : Option Nat} (nests : Relation.TransGen d.Nests s s') :
    ∃ t, s' = some t ∧ ∀ u, s = some u → u < t := by
  induction nests with
  | single once =>
      cases once with
      | call here calls =>
          rw [← part_of_divided valid flow divided here]
          exact ⟨_, rfl, (divided_call valid flow divided calls).2.2⟩
  | tail _ once ih =>
      obtain ⟨t, rfl, before⟩ := ih
      cases once with
      | call here calls =>
          have later := (divided_call valid flow divided calls).2.2 t
            (part_of_divided valid flow divided here)
          exact ⟨_, rfl, fun u same => Nat.lt_trans (before u same) later⟩

/-- A division of the positions shows that a draft is structured. -/
theorem structured_of_divided (valid : d.Valid) (flow : d.flow = .ok f)
    (divided : f.divided part = true) : d.Structured := by
  constructor
  · intro s s' i here there
    rw [← part_of_divided valid flow divided here, part_of_divided valid flow divided there]
  · intro s cycle
    obtain ⟨t, rfl, before⟩ := nests_of_divided valid flow divided cycle
    exact Nat.lt_irrefl t (before t rfl)

end Draft

end JvmAssembly
