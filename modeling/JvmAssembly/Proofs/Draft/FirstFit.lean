import Mathlib
import JvmAssembly.Proofs.Draft.Interference
import JvmAssembly.Proofs.Draft.ValueFlow

/-!
Slots by first fit. A plan gives a slot of any height to every local that needs one: the fixed
slot if there is one, and else the lowest from which on no local lives that has come before. There
is one such plan, and allocation follows it as far as frames reach.
-/
namespace JvmAssembly

/-- The local is live on entry to or on exit from some position. -/
def Liveness.Lives (liveness : Liveness) (v : Nat) : Prop :=
  ∃ i, (liveness.live v).contains i = true

/-- The locals are live at one position. -/
def Liveness.Meets (liveness : Liveness) (v w : Nat) : Prop :=
  ∃ i, (liveness.live v).contains i = true ∧ (liveness.live w).contains i = true

/-- The local takes up the slot if its first one is `s`. -/
def LocalInfo.Covers (l : LocalInfo) (s j : Nat) : Prop :=
  s ≤ j ∧ j < s + l.kind.width

/-- The local may have its slots from `s` on. Those that live together with it and have slots in
the plan, fixed ones or because they were declared before it, leave them free. -/
def FreeFrom (locals : Array LocalInfo) (liveness : Liveness) (plan : Nat → Option Nat) (v : Nat)
    (l : LocalInfo) (s : Nat) : Prop :=
  ∀ w lw t, locals[w]? = some lw → lw.fixedSlot ≠ none ∨ w < v → plan w = some t →
    liveness.Meets v w → ∀ j, ¬ (l.Covers s j ∧ lw.Covers t j)

/-- What the plan has for one local. -/
structure FitsFirst (locals : Array LocalInfo) (liveness : Liveness) (plan : Nat → Option Nat)
    (v : Nat) (l : LocalInfo) : Prop where
  fixed : ∀ slot, l.fixedSlot = some slot → plan v = some slot.toNat
  served : l.fixedSlot = none → ((∃ s, plan v = some s) ↔ liveness.Lives v)
  least : ∀ s, l.fixedSlot = none → plan v = some s →
    IsLeast {s | FreeFrom locals liveness plan v l s} s

/-- The first slots of all locals, if there were no limit to the size of a frame. -/
def FirstFit (locals : Array LocalInfo) (liveness : Liveness) (plan : Nat → Option Nat) : Prop :=
  ∀ v l, locals[v]? = some l → FitsFirst locals liveness plan v l

/-- Sizes that a frame must not fall short of: one for the reserved slots and one for each local
with a slot. -/
def frameSizes (reserved : Nat) (locals : Array LocalInfo) (plan : Nat → Option Nat) : Set Nat :=
  {n | n = reserved ∨ ∃ v l s, locals[v]? = some l ∧ plan v = some s ∧ n = s + l.kind.width}

section Plans

variable {locals : Array LocalInfo} {liveness : Liveness} {plan other : Nat → Option Nat}
  {v w s t : Nat} {l lw : LocalInfo}

theorem Liveness.Meets.symm (meets : liveness.Meets v w) : liveness.Meets w v := by
  obtain ⟨i, first, second⟩ := meets
  exact ⟨i, second, first⟩

/-- A place depends on the locals that come before only. -/
theorem freeFrom_congr (same : ∀ w lw, locals[w]? = some lw → lw.fixedSlot ≠ none ∨ w < v →
    other w = plan w) :
    FreeFrom locals liveness other v l s ↔ FreeFrom locals liveness plan v l s := by
  constructor
  · intro free w lw t found before planned
    exact free w lw t found before ((same w lw found before).trans planned)
  · intro free w lw t found before planned
    exact free w lw t found before ((same w lw found before).symm.trans planned)

theorem FitsFirst.congr (fits : FitsFirst locals liveness plan v l)
    (same : ∀ w lw, locals[w]? = some lw → lw.fixedSlot ≠ none ∨ w < v → other w = plan w)
    (here : other v = plan v) : FitsFirst locals liveness other v l := by
  refine ⟨?_, ?_, ?_⟩
  · rw [here]
    exact fits.fixed
  · rw [here]
    exact fits.served
  · intro s free planned
    simp only [freeFrom_congr same]
    exact fits.least s free (here.symm.trans planned)

theorem FirstFit.congr (fit : FirstFit locals liveness plan)
    (same : ∀ v < locals.size, other v = plan v) : FirstFit locals liveness other := by
  have agree : ∀ w lw, locals[w]? = some lw → other w = plan w := fun w lw found =>
    same w (Array.getElem?_eq_some_iff.mp found).1
  exact fun v l found => (fit v l found).congr (fun w lw stored _ => agree w lw stored)
    (agree v l found)

theorem frameSizes_congr {reserved : Nat} (same : ∀ v < locals.size, other v = plan v) :
    frameSizes reserved locals other = frameSizes reserved locals plan := by
  ext n
  refine or_congr_right (exists_congr fun v => exists_congr fun l => exists_congr fun s =>
    and_congr_right fun found => ?_)
  rw [same v (Array.getElem?_eq_some_iff.mp found).1]

/-- Two plans have the same slots. -/
theorem FirstFit.unique (fit : FirstFit locals liveness plan)
    (fit' : FirstFit locals liveness other) (inside : v < locals.size) : other v = plan v := by
  induction v using Nat.strong_induction_on with
  | _ v ih =>
      have found := Array.getElem?_eq_getElem inside
      generalize locals[v] = l at found
      have here := fit v l found
      have here' := fit' v l found
      cases fixed : l.fixedSlot with
      | some slot => rw [here.fixed slot fixed, here'.fixed slot fixed]
      | none =>
          have before : ∀ w lw, locals[w]? = some lw → lw.fixedSlot ≠ none ∨ w < v →
              other w = plan w := by
            intro w lw stored earlier
            cases pinned : lw.fixedSlot with
            | some slot => rw [(fit w lw stored).fixed slot pinned,
                (fit' w lw stored).fixed slot pinned]
            | none =>
                have less := earlier.resolve_left fun other => other pinned
                exact ih w less (Array.getElem?_eq_some_iff.mp stored).1
          cases planned : plan v with
          | none =>
              by_contra given
              obtain ⟨s, given⟩ := Option.ne_none_iff_exists'.mp given
              obtain ⟨t, planned'⟩ := (here.served fixed).mpr ((here'.served fixed).mp ⟨s, given⟩)
              cases planned.symm.trans planned'
          | some s =>
              obtain ⟨t, given⟩ := (here'.served fixed).mpr ((here.served fixed).mp ⟨s, planned⟩)
              have low := here.least s fixed planned
              have low' := here'.least t fixed given
              simp only [freeFrom_congr before] at low'
              rw [given, low'.unique low]

/-- Slots in a plan have an end. -/
theorem exists_bound (locals : Array LocalInfo) (plan : Nat → Option Nat) :
    ∃ bound, ∀ v l s, locals[v]? = some l → plan v = some s → s + l.kind.width ≤ bound := by
  refine ⟨(Finset.range locals.size).sup fun v =>
    (plan v).getD 0 + (locals[v]?).elim 0 (·.kind.width), ?_⟩
  intro v l s found planned
  have member := Finset.mem_range.mpr (Array.getElem?_eq_some_iff.mp found).1
  have le := Finset.le_sup (f := fun v => (plan v).getD 0 + (locals[v]?).elim 0 (·.kind.width))
    member
  simpa only [planned, found, Option.getD_some, Option.elim_some] using le

theorem exists_freeFrom (locals : Array LocalInfo) (liveness : Liveness)
    (plan : Nat → Option Nat) (v : Nat) (l : LocalInfo) :
    ∃ s, FreeFrom locals liveness plan v l s := by
  obtain ⟨bound, above⟩ := exists_bound locals plan
  refine ⟨bound, ?_⟩
  rintro w lw t found - planned - j ⟨⟨low, -⟩, -, high⟩
  have le := above w lw t found planned
  omega

theorem exists_size (reserved : Nat) (locals : Array LocalInfo) (plan : Nat → Option Nat) :
    ∃ size, IsGreatest (frameSizes reserved locals plan) size := by
  obtain ⟨bound, above⟩ := exists_bound locals plan
  have bounded : BddAbove (frameSizes reserved locals plan) := by
    refine ⟨max reserved bound, ?_⟩
    rintro n (rfl | ⟨v, l, s, found, planned, rfl⟩)
    · exact Nat.le_max_left ..
    · exact (above v l s found planned).trans (Nat.le_max_right ..)
  exact ⟨_, Nat.sSup_mem ⟨reserved, .inl rfl⟩ bounded, fun n member => le_csSup bounded member⟩

/-- One more local gets its place, whatever the plan has for those before it. -/
theorem exists_fitsFirst
    (pinned : ∀ w lw slot, locals[w]? = some lw → lw.fixedSlot = some slot →
      plan w = some slot.toNat) (found : locals[v]? = some l) :
    ∃ other : Nat → Option Nat, (∀ w, w ≠ v → other w = plan w) ∧
      (l.fixedSlot ≠ none → other v = plan v) ∧ FitsFirst locals liveness other v l := by
  classical
  cases fixed : l.fixedSlot with
  | some slot =>
      refine ⟨plan, fun _ _ => rfl, fun _ => rfl, fun slot => pinned v l slot found, ?_, ?_⟩
      · intro free
        cases fixed.symm.trans free
      · intro s free
        cases fixed.symm.trans free
  | none =>
      have place : ∃ given : Option Nat, ((∃ s, given = some s) ↔ liveness.Lives v) ∧
          ∀ s, given = some s → IsLeast {s | FreeFrom locals liveness plan v l s} s := by
        by_cases lives : liveness.Lives v
        · have room := exists_freeFrom locals liveness plan v l
          refine ⟨some (Nat.find room), ⟨fun _ => lives, fun _ => ⟨_, rfl⟩⟩, ?_⟩
          rintro s ⟨⟩
          exact ⟨Nat.find_spec room, fun t free => Nat.find_min' room free⟩
        · refine ⟨none, ⟨?_, fun alive => absurd alive lives⟩, ?_⟩
          · rintro ⟨s, ⟨⟩⟩
          · rintro s ⟨⟩
      obtain ⟨given, served, least⟩ := place
      have others : ∀ w, w ≠ v → Function.update plan v given w = plan w := fun w apart =>
        Function.update_of_ne apart given plan
      have here : Function.update plan v given v = given := Function.update_self v given plan
      refine ⟨Function.update plan v given, others, fun free => absurd rfl free, ?_, ?_, ?_⟩
      · intro slot same
        cases fixed.symm.trans same
      · rw [here]
        exact fun _ => served
      · intro s _ planned
        have same : ∀ w lw, locals[w]? = some lw → lw.fixedSlot ≠ none ∨ w < v →
            Function.update plan v given w = plan w := by
          intro w lw stored before
          refine others w fun same => ?_
          subst same
          cases found.symm.trans stored
          exact before.elim (fun pinned => pinned fixed) (Nat.lt_irrefl w)
        simp only [freeFrom_congr same]
        exact least s (here.symm.trans planned)

theorem exists_firstFit (locals : Array LocalInfo) (liveness : Liveness) :
    ∃ plan, FirstFit locals liveness plan := by
  have below : ∀ k, ∃ plan : Nat → Option Nat,
      (∀ w lw slot, locals[w]? = some lw → lw.fixedSlot = some slot →
        plan w = some slot.toNat) ∧
      ∀ v < k, ∀ l, locals[v]? = some l → FitsFirst locals liveness plan v l := by
    intro k
    induction k with
    | zero =>
        refine ⟨fun w => (locals[w]?).bind fun lw => lw.fixedSlot.map (·.toNat), ?_,
          fun v less => absurd less (Nat.not_lt_zero v)⟩
        intro w lw slot found fixed
        simp only [found, Option.bind_some, fixed, Option.map_some]
    | succ k ih =>
        obtain ⟨plan, pinned, fit⟩ := ih
        cases found : locals[k]? with
        | none =>
            refine ⟨plan, pinned, fun v less l stored => ?_⟩
            rcases Nat.lt_succ_iff_lt_or_eq.mp less with before | rfl
            · exact fit v before l stored
            · cases found.symm.trans stored
        | some l =>
            obtain ⟨other, others, kept, here⟩ := @exists_fitsFirst locals liveness plan k l pinned
              found
            have same : ∀ w lw, locals[w]? = some lw → lw.fixedSlot ≠ none ∨ w < k →
                other w = plan w := by
              intro w lw stored before
              by_cases last : w = k
              · subst last
                cases found.symm.trans stored
                exact kept (before.resolve_right (Nat.lt_irrefl w))
              · exact others w last
            refine ⟨other, fun w lw slot stored fixed => ?_, fun v less l' stored => ?_⟩
            · rw [same w lw stored (.inl (fixed ▸ Option.some_ne_none slot))]
              exact pinned w lw slot stored fixed
            · rcases Nat.lt_succ_iff_lt_or_eq.mp less with before | rfl
              · exact (fit v before l' stored).congr
                  (fun w lw stored earlier => same w lw stored
                    (earlier.imp_right (Nat.lt_trans · before))) (same v l' stored (.inr before))
              · cases found.symm.trans stored
                exact here
  obtain ⟨plan, -, fit⟩ := below locals.size
  exact ⟨plan, fun v l found => fit v (Array.getElem?_eq_some_iff.mp found).1 l found⟩

/-- Locals that live together and share a slot are both fixed. -/
theorem FirstFit.apart (fit : FirstFit locals liveness plan) (distinct : v ≠ w)
    (found : locals[v]? = some l) (found' : locals[w]? = some lw)
    (free : l.fixedSlot = none ∨ lw.fixedSlot = none) (planned : plan v = some s)
    (planned' : plan w = some t) {j : Nat} (here : l.Covers s j) (there : lw.Covers t j) :
    ¬ liveness.Meets v w := by
  intro meets
  -- The one that is not fixed was placed after the other, or after a later one of its kind.
  have later : ∀ {v w l lw s t}, locals[v]? = some l → locals[w]? = some lw →
      l.fixedSlot = none → plan v = some s → plan w = some t → l.Covers s j → lw.Covers t j →
      liveness.Meets v w → ¬ (lw.fixedSlot ≠ none ∨ w < v) := by
    intro v w l lw s t found found' free planned planned' here there meets before
    exact ((fit v l found).least s free planned).1 w lw t found' before planned' meets j
      ⟨here, there⟩
  have first := fun free => later found found' free planned planned' here there meets
  have second := fun free => later found' found free planned' planned there here meets.symm
  by_cases unfixed : l.fixedSlot = none
  · have none := first unfixed
    push Not at none
    exact second none.1 (.inr (Nat.lt_of_le_of_ne none.2 distinct))
  · exact second (free.resolve_left unfixed) (.inl unfixed)

end Plans

namespace Allocation

section Search

variable {n : Nat} {occupied : Array BitSet} {live : BitSet} {width : Nat}

/-- The place that is found is the lowest one with room. -/
theorem isLeast_firstFit (occupied : Array BitSet) (live : BitSet) (width : Nat) :
    IsLeast {s | ∀ j, s ≤ j → j < s + width → conflicts occupied live j = false}
      (firstFit occupied live width) := by
  constructor
  · intro j low high
    have free := firstFit_free occupied live width (Nat.sub_lt_left_of_lt_add low high)
    rwa [Nat.add_sub_cancel' low] at free
  · intro s free
    have fits : (List.range width).all (fun i => !conflicts occupied live (s + i)) = true := by
      rw [List.all_eq_true]
      intro i member
      rw [free (s + i) (Nat.le_add_right ..) (Nat.add_lt_add_left (List.mem_range.mp member) s)]
      rfl
    unfold firstFit
    dsimp only
    cases found : (List.range occupied.size).find? fun slot =>
        (List.range width).all fun i => !conflicts occupied live (slot + i) with
    | none =>
        rw [List.find?_range_eq_none] at found
        by_contra less
        have refused := found s (Nat.lt_of_not_le less)
        rw [fits] at refused
        cases refused
    | some slot =>
        rw [List.find?_range_eq_some] at found
        by_contra less
        have refused := found.2.2 s (Nat.lt_of_not_le less)
        rw [fits] at refused
        cases refused

end Search

section Step

variable {liveness : Liveness} {k : Nat} {a : Allocation} {l : LocalInfo}

theorem place_of_fixed (found : a.locals[k]? = some l) (fixed : l.fixedSlot ≠ none) :
    place liveness k a = (.ok (), a) := by
  obtain ⟨name, type, fixedSlot, slot⟩ := l
  cases fixedSlot with
  | none => exact absurd rfl fixed
  | some fixedSlot => rw [place, found]

theorem place_of_idle (found : a.locals[k]? = some l) (free : l.fixedSlot = none)
    (idle : (liveness.live k).isEmpty = true) :
    place liveness k a = (.ok (), a.setSlot k none) := by
  obtain ⟨name, type, fixedSlot, slot⟩ := l
  cases free
  rw [place, found]
  exact if_pos idle

theorem place_of_busy (found : a.locals[k]? = some l) (free : l.fixedSlot = none)
    (busy : (liveness.live k).isEmpty = false) {s : Nat}
    (first : s = firstFit a.occupied (liveness.live k) l.kind.width) :
    place liveness k a =
      if s + l.kind.width > 65535 then (.error (.maxLocalsOverflow (s + l.kind.width)), a)
      else (.ok (), (a.claim (liveness.live k) s l.kind.width).setSlot k (some (UInt16.ofNat s))) := by
  obtain ⟨name, type, fixedSlot, slot⟩ := l
  cases free
  rw [place, found, first]
  exact if_neg (busy ▸ Bool.false_ne_true)

end Step

/-- The slot of the local was fixed beforehand. -/
def Pinned (locals : Array LocalInfo) (v : Nat) : Prop :=
  ∃ l, locals[v]? = some l ∧ l.fixedSlot ≠ none

/-- What is recorded is what the plan has for the locals that are done. -/
structure Follows (locals : Array LocalInfo) (liveness : Liveness) (plan : Nat → Option Nat)
    (reserved n : Nat) (done : Nat → Prop) (a : Allocation) : Prop where
  fits : Fits n a.occupied
  held : ∀ j i, holds a.occupied j i = true ↔ ∃ w l s, done w ∧ locals[w]? = some l ∧
    plan w = some s ∧ l.Covers s j ∧ (liveness.live w).contains i = true
  reserved_le : reserved ≤ a.frame
  width_le : ∀ w l s, done w → locals[w]? = some l → plan w = some s →
    s + l.kind.width ≤ a.frame
  attained : a.frame ∈ frameSizes reserved locals plan

/-- Locals have the slots of the plan as far as they are done. -/
structure Placed (locals : Array LocalInfo) (liveness : Liveness) (plan : Nat → Option Nat)
    (reserved n k : Nat) (a : Allocation) : Prop where
  follows : Follows locals liveness plan reserved n (fun w => Pinned locals w ∨ w < k) a
  moved : Reslotted locals a.locals
  slots : ∀ w l, Pinned locals w ∨ w < k → a.locals[w]? = some l →
    l.slot.map (·.toNat) = plan w

section Following

variable {locals : Array LocalInfo} {liveness : Liveness} {plan : Nat → Option Nat}
  {reserved n v k : Nat} {done done' : Nat → Prop} {a a' : Allocation} {l : LocalInfo}

theorem Follows.congr (follows : Follows locals liveness plan reserved n done a)
    (occupied : a'.occupied = a.occupied) (frame : a'.frame = a.frame)
    (same : ∀ w l s, locals[w]? = some l → plan w = some s → (done' w ↔ done w)) :
    Follows locals liveness plan reserved n done' a' := by
  refine ⟨occupied ▸ follows.fits, ?_, frame ▸ follows.reserved_le, ?_, frame ▸ follows.attained⟩
  · intro j i
    rw [occupied, follows.held]
    constructor
    · rintro ⟨w, l, s, doneW, found, planned, rest⟩
      exact ⟨w, l, s, (same w l s found planned).mpr doneW, found, planned, rest⟩
    · rintro ⟨w, l, s, doneW, found, planned, rest⟩
      exact ⟨w, l, s, (same w l s found planned).mp doneW, found, planned, rest⟩
  · intro w l s doneW found planned
    rw [frame]
    exact follows.width_le w l s ((same w l s found planned).mp doneW) found planned

/-- A local is recorded where the plan has it. -/
theorem Follows.claim (follows : Follows locals liveness plan reserved n done a)
    (found : locals[v]? = some l) {s : Nat} (planned : plan v = some s)
    (sound : (liveness.live v).Sound) (capacity : (liveness.live v).capacity = n) :
    Follows locals liveness plan reserved n (fun w => done w ∨ w = v)
      (a.claim (liveness.live v) s l.kind.width) := by
  have frame : (a.claim (liveness.live v) s l.kind.width).frame =
      max a.frame (s + l.kind.width) := rfl
  have occupied : (a.claim (liveness.live v) s l.kind.width).occupied =
      occupyAll a.occupied (liveness.live v) s l.kind.width := rfl
  refine ⟨fits_occupyAll follows.fits sound capacity _ _, ?_, ?_, ?_, ?_⟩
  · intro j i
    rw [occupied, holds_occupyAll follows.fits sound capacity, Bool.or_eq_true, follows.held,
      Bool.and_eq_true, decide_eq_true_eq]
    constructor
    · rintro (⟨w, lw, t, doneW, rest⟩ | ⟨covers, live⟩)
      · exact ⟨w, lw, t, .inl doneW, rest⟩
      · exact ⟨v, l, s, .inr rfl, found, planned, covers, live⟩
    · rintro ⟨w, lw, t, doneW | rfl, stored, placed, covers, live⟩
      · exact .inl ⟨w, lw, t, doneW, stored, placed, covers, live⟩
      · cases found.symm.trans stored
        cases planned.symm.trans placed
        exact .inr ⟨covers, live⟩
  · rw [frame]
    exact follows.reserved_le.trans (Nat.le_max_left ..)
  · rintro w lw t (doneW | rfl) stored placed
    · rw [frame]
      exact (follows.width_le w lw t doneW stored placed).trans (Nat.le_max_left ..)
    · cases found.symm.trans stored
      cases planned.symm.trans placed
      exact Nat.le_max_right ..
  · rw [frame]
    rcases Nat.le_total a.frame (s + l.kind.width) with le | le
    · rw [Nat.max_eq_right le]
      exact .inr ⟨v, l, s, found, planned, rfl⟩
    · rw [Nat.max_eq_left le]
      exact follows.attained

theorem follows_foldl_claimFixed (vs : List Nat) (fit : FirstFit locals liveness plan)
    (ranged : liveness.Ranged n locals.size) (same : a.locals = locals)
    (follows : Follows locals liveness plan reserved n done a) :
    Follows locals liveness plan reserved n (fun w => done w ∨ (w ∈ vs ∧ Pinned locals w))
      (vs.foldl (claimFixed liveness) a) := by
  induction vs generalizing a done with
  | nil =>
      refine follows.congr rfl rfl fun w l s _ _ => ?_
      simp
  | cons v vs ih =>
      have locals' := (claimFixed_locals liveness a v).trans same
      have next : Follows locals liveness plan reserved n
          (fun w => done w ∨ (w = v ∧ Pinned locals w)) (claimFixed liveness a v) := by
        unfold claimFixed
        rw [same]
        cases found : locals[v]? with
        | none =>
            refine follows.congr rfl rfl fun w l s stored _ => or_iff_left ?_
            rintro ⟨rfl, -⟩
            cases found.symm.trans stored
        | some l =>
            obtain ⟨sound, capacity⟩ := ranged v (Array.getElem?_eq_some_iff.mp found).1
            have planned := (fit v l found).fixed
            obtain ⟨name, type, fixed, slot⟩ := l
            cases fixed with
            | none =>
                refine follows.congr rfl rfl fun w l s stored _ => or_iff_left ?_
                rintro ⟨rfl, l', stored', fixed⟩
                cases found.symm.trans stored'
                exact fixed rfl
            | some fixed =>
                have pinned : Pinned locals v := ⟨_, found, Option.some_ne_none fixed⟩
                refine (follows.claim found (planned fixed rfl) sound capacity).congr rfl rfl
                  fun w l s _ _ => or_congr_right ⟨And.left, ?_⟩
                rintro rfl
                exact ⟨rfl, pinned⟩
      refine (ih locals' next).congr rfl rfl fun w l s _ _ => ?_
      rw [List.mem_cons, or_and_right, or_assoc]

/-- A place leaves the others free exactly if nothing is recorded there at a time when the local
is live. -/
theorem Placed.freeFrom_iff (placed : Placed locals liveness plan reserved n k a)
    (sound : (liveness.live k).Sound) (capacity : (liveness.live k).capacity = n) {s : Nat} :
    FreeFrom locals liveness plan k l s ↔
      ∀ j, s ≤ j → j < s + l.kind.width → conflicts a.occupied (liveness.live k) j = false := by
  constructor
  · intro free j low high
    rw [Bool.eq_false_iff, ne_eq, conflicts_iff placed.follows.fits sound capacity]
    rintro ⟨i, held, live⟩
    obtain ⟨w, lw, t, before, found, planned, covers, live'⟩ := (placed.follows.held j i).mp held
    refine free w lw t found (before.imp_left ?_) planned ⟨i, live, live'⟩ j ⟨⟨low, high⟩, covers⟩
    rintro ⟨l', found', pinned⟩
    cases found.symm.trans found'
    exact pinned
  · rintro free w lw t found before planned ⟨i, live, live'⟩ j ⟨here, there⟩
    have clear := free j here.1 here.2
    rw [Bool.eq_false_iff, ne_eq, conflicts_iff placed.follows.fits sound capacity] at clear
    refine clear ⟨i, (placed.follows.held j i).mpr ⟨w, lw, t, ?_, found, planned, there, live'⟩,
      live⟩
    exact before.imp_left fun pinned => ⟨lw, found, pinned⟩

/-- The next local is done. -/
theorem Placed.extend (placed : Placed locals liveness plan reserved n k a)
    (follows : Follows locals liveness plan reserved n
      (fun w => (Pinned locals w ∨ w < k) ∨ w = k) a')
    (moved : Reslotted a.locals a'.locals) (others : ∀ w ≠ k, a'.locals[w]? = a.locals[w]?)
    (here : ∀ l, a'.locals[k]? = some l → l.slot.map (·.toNat) = plan k) :
    Placed locals liveness plan reserved n (k + 1) a' := by
  have split : ∀ w, Pinned locals w ∨ w < k + 1 ↔ (Pinned locals w ∨ w < k) ∨ w = k := by
    intro w
    rw [Nat.lt_succ_iff_lt_or_eq, or_assoc]
  refine ⟨follows.congr rfl rfl fun w _ _ _ _ => split w, placed.moved.trans moved, ?_⟩
  intro w l before found
  by_cases last : w = k
  · subst last
    exact here l found
  · rw [others w last] at found
    exact placed.slots w l (((split w).mp before).resolve_right last) found

/-- The search for a place comes to the one that the plan has. -/
theorem Placed.plan_eq (placed : Placed locals liveness plan reserved n k a)
    (fit : FirstFit locals liveness plan) (found : locals[k]? = some l)
    (free : l.fixedSlot = none) (lives : liveness.Lives k)
    (sound : (liveness.live k).Sound) (capacity : (liveness.live k).capacity = n) :
    plan k = some (firstFit a.occupied (liveness.live k) l.kind.width) := by
  obtain ⟨s, planned⟩ := ((fit k l found).served free).mpr lives
  have least := (fit k l found).least s free planned
  simp only [placed.freeFrom_iff sound capacity] at least
  rw [planned, least.unique (isLeast_firstFit ..)]

theorem Placed.place_idle (placed : Placed locals liveness plan reserved n k a)
    (stored : a.locals[k]? = some l) (free : l.fixedSlot = none) (unplanned : plan k = none)
    (idle : (liveness.live k).isEmpty = true) :
    ∃ a', place liveness k a = (.ok (), a') ∧
      Placed locals liveness plan reserved n (k + 1) a' := by
  have step := place_of_idle stored free idle
  refine ⟨_, step, placed.extend ?_ (place_reslotted step) ?_ ?_⟩
  · refine placed.follows.congr rfl rfl fun w _ _ _ given => or_iff_left ?_
    rintro rfl
    cases unplanned.symm.trans given
  · intro w other
    rw [setSlot_getElem?, if_neg (Ne.symm other)]
  · intro l' there
    rw [setSlot_getElem?, if_pos rfl, stored] at there
    cases there
    exact unplanned.symm

theorem Placed.place_busy (placed : Placed locals liveness plan reserved n k a)
    (found : locals[k]? = some l) {old : Option UInt16}
    (stored : a.locals[k]? = some { l with slot := old }) (free : l.fixedSlot = none)
    (busy : (liveness.live k).isEmpty = false) (sound : (liveness.live k).Sound)
    (capacity : (liveness.live k).capacity = n) {s : Nat} (planned : plan k = some s)
    (first : s = firstFit a.occupied (liveness.live k) l.kind.width)
    (room : ¬ s + l.kind.width > 65535) :
    ∃ a', place liveness k a = (.ok (), a') ∧
      Placed locals liveness plan reserved n (k + 1) a' := by
  have step := (place_of_busy stored free busy first).trans (if_neg room)
  refine ⟨_, step, placed.extend ?_ (place_reslotted step) ?_ ?_⟩
  · exact (placed.follows.claim found planned sound capacity).congr rfl rfl fun _ _ _ _ _ => Iff.rfl
  · intro w other
    rw [setSlot_getElem?, if_neg (Ne.symm other), claim_locals]
  · intro l' there
    rw [setSlot_getElem?, if_pos rfl, claim_locals, stored] at there
    cases there
    rw [planned, Option.map_some, toNat_ofNat_slot room]

/-- One step of the allocation does what the plan says, or finds that the plan goes past the
largest frame. -/
theorem Placed.place (placed : Placed locals liveness plan reserved n k a)
    (fit : FirstFit locals liveness plan) (found : locals[k]? = some l)
    (sound : (liveness.live k).Sound) (capacity : (liveness.live k).capacity = n) :
    (∃ a', place liveness k a = (.ok (), a') ∧
      Placed locals liveness plan reserved n (k + 1) a') ∨
    ∃ s, place liveness k a = (.error (.maxLocalsOverflow (s + l.kind.width)), a) ∧
      plan k = some s ∧ 65535 < s + l.kind.width := by
  obtain ⟨old, stored, -⟩ := placed.moved.info k l found
  by_cases free : l.fixedSlot = none
  · by_cases lives : liveness.Lives k
    · have planned := placed.plan_eq fit found free lives sound capacity
      obtain ⟨i, live⟩ := lives
      have busy := BitSet.isEmpty_eq_false sound live
      by_cases room : firstFit a.occupied (liveness.live k) l.kind.width + l.kind.width > 65535
      · exact .inr ⟨_, (place_of_busy stored free busy rfl).trans (if_pos room), planned, room⟩
      · exact .inl (placed.place_busy found stored free busy sound capacity planned rfl room)
    · have idle : (liveness.live k).isEmpty = true := by
        rw [BitSet.isEmpty_eq_not_intersects, Bool.not_eq_true', Bool.eq_false_iff]
        intro busy
        obtain ⟨i, live, -⟩ := BitSet.common_of_intersects sound sound busy
        exact lives ⟨i, live⟩
      have unplanned : plan k = none := by
        by_contra given
        exact lives (((fit k l found).served free).mp (Option.ne_none_iff_exists'.mp given))
      exact .inl (placed.place_idle stored free unplanned idle)
  · have pinned : Pinned locals k := ⟨l, found, free⟩
    refine .inl ⟨a, place_of_fixed stored free, placed.extend ?_ (.refl _) (fun _ _ => rfl)
      fun l' => placed.slots k l' (.inl pinned)⟩
    refine placed.follows.congr rfl rfl fun w _ _ _ _ => or_iff_left_of_imp ?_
    rintro rfl
    exact .inl pinned

theorem Placed.placeAll {m : Nat} (placed : Placed locals liveness plan reserved n k a)
    (fit : FirstFit locals liveness plan) (ranged : liveness.Ranged n locals.size)
    (inside : k + m ≤ locals.size) :
    (∃ a', placeAll liveness (List.range' k m) a = (.ok (), a') ∧
      Placed locals liveness plan reserved n (k + m) a') ∨
    ∃ v l s b, placeAll liveness (List.range' k m) a =
        (.error (.maxLocalsOverflow (s + l.kind.width)), b) ∧
      locals[v]? = some l ∧ plan v = some s ∧ 65535 < s + l.kind.width := by
  induction m generalizing k a with
  | zero => exact .inl ⟨a, rfl, placed⟩
  | succ m ih =>
      have bound : k < locals.size := by omega
      have found := Array.getElem?_eq_getElem bound
      obtain ⟨sound, capacity⟩ := ranged k bound
      rw [List.range'_succ, Allocation.placeAll]
      rcases placed.place fit found sound capacity with ⟨b, step, next⟩ | ⟨s, step, planned, past⟩
      · rw [step]
        rcases ih next (by omega) with ⟨a', rest, last⟩ | failed
        · exact .inl ⟨a', rest, by rwa [Nat.add_assoc, Nat.add_comm 1] at last⟩
        · exact .inr failed
      · rw [step]
        exact .inr ⟨k, _, s, a, rfl, found, planned, past⟩

end Following

end Allocation

namespace Draft

open Allocation

/-- The first slot that a local has. -/
def firstSlot (d : Draft) (v : Nat) : Option Nat :=
  (d.locals[v]?).bind fun l => l.slot.map (·.toNat)

/-- What the analysis of a draft finds out about its locals. -/
def Analysed (d : Draft) (liveness : Liveness) : Prop :=
  ∃ f, d.flow = .ok f ∧ liveness = .ofFlow f d.locals.size

/-- Allocation gives the slots of the plan, unless that needs more than the largest frame. -/
theorem allocateSlots_planned {liveness : Liveness} {n size : Nat} {d : Draft}
    {plan : Nat → Option Nat} (kept : ∀ l ∈ d.locals, ∀ slot, l.fixedSlot = some slot →
      l.slot = some slot) (ranged : liveness.Ranged n d.locals.size)
    (fit : FirstFit d.locals liveness plan)
    (greatest : IsGreatest (frameSizes d.reservedSlots.toNat d.locals plan) size) :
    (size ≤ 65535 ∧ ∃ d', allocateSlots liveness d = (.ok (UInt16.ofNat size), d') ∧
      ∀ v < d.locals.size, d'.firstSlot v = plan v) ∨
    (65535 < size ∧ ∃ need d', allocateSlots liveness d =
      (.error (.maxLocalsOverflow need), d')) := by
  have start : Follows d.locals liveness plan d.reservedSlots.toNat n (fun _ => False)
      ⟨d.locals, #[], d.reservedSlots.toNat⟩ := by
    refine ⟨?_, ?_, Nat.le_refl _, fun _ _ _ done => done.elim, .inl rfl⟩
    · intro slot taken found
      simp at found
    · intro j i
      simp [holds]
  have claimed := follows_foldl_claimFixed (List.range d.locals.size) fit ranged rfl start
  have same := foldl_claimFixed_locals liveness (List.range d.locals.size)
    ⟨d.locals, #[], d.reservedSlots.toNat⟩
  have fixed : Placed d.locals liveness plan d.reservedSlots.toNat n 0
      ((List.range d.locals.size).foldl (claimFixed liveness)
        ⟨d.locals, #[], d.reservedSlots.toNat⟩) := by
    refine ⟨claimed.congr rfl rfl fun w l s found _ => ?_, same.symm ▸ .refl _, ?_⟩
    · have inside := List.mem_range.mpr (Array.getElem?_eq_some_iff.mp found).1
      simp [inside]
    · rintro w l (⟨l', found, pinned⟩ | less) stored
      · rw [same] at stored
        cases found.symm.trans stored
        obtain ⟨slot, given⟩ := Option.ne_none_iff_exists'.mp pinned
        rw [(fit w l found).fixed slot given, kept l (Array.mem_of_getElem? found) slot given]
        rfl
      · exact absurd less (Nat.not_lt_zero w)
  rcases fixed.placeAll fit ranged (Nat.le_of_eq (Nat.zero_add _)) with
    ⟨a, placed, last⟩ | ⟨v, l, s, a, failed, found, planned, past⟩
  · rw [← List.range_eq_range'] at placed
    rw [Nat.zero_add] at last
    have inside : ∀ {w l}, d.locals[w]? = some l → w < d.locals.size :=
      fun found => (Array.getElem?_eq_some_iff.mp found).1
    have frame : a.frame = size := by
      refine IsGreatest.unique ⟨last.follows.attained, ?_⟩ greatest
      rintro n (rfl | ⟨w, l, s, found, planned, rfl⟩)
      · exact last.follows.reserved_le
      · exact last.follows.width_le w l s (.inr (inside found)) found planned
    by_cases room : size > 65535
    · refine .inr ⟨room, a.frame, { d with locals := a.locals }, ?_⟩
      unfold allocateSlots
      dsimp only
      rw [placed]
      exact if_pos (frame.symm ▸ room)
    · refine .inl ⟨Nat.le_of_not_lt room, { d with locals := a.locals }, ?_, ?_⟩
      · unfold allocateSlots
        dsimp only
        rw [placed, ← frame]
        exact if_neg (frame.symm ▸ room)
      · intro v bound
        obtain ⟨slot, stored, -⟩ := last.moved.info v _ (Array.getElem?_eq_getElem bound)
        have given := last.slots v _ (.inr bound) stored
        simp only [firstSlot, stored, Option.bind_some]
        exact given
  · rw [← List.range_eq_range'] at failed
    refine .inr ⟨Nat.lt_of_lt_of_le past (greatest.2 (.inr ⟨v, l, s, found, planned, rfl⟩)),
      s + l.kind.width, { d with locals := a.locals }, ?_⟩
    unfold allocateSlots
    dsimp only
    rw [failed]

/-- Slots are allocated by first fit. Fixed slots stay; every other local has a slot exactly if it
is live somewhere, namely the lowest one from which on it is free of the fixed locals and of those
declared before it that are live together with it. So two locals that share a slot are never live
together unless both are fixed. The frame is as large as the reserved slots and the slots of the
locals need it, and allocation fails exactly if that is more than a frame can be. -/
theorem allocateSlots_firstFit {d : Draft} {liveness : Liveness} (reachable : d.Reachable)
    (analysed : d.Analysed liveness) :
    (∀ frame d', allocateSlots liveness d = (.ok frame, d') →
      FirstFit d.locals liveness d'.firstSlot ∧
      (∀ v w lv lw s t j, v ≠ w → d.locals[v]? = some lv → d.locals[w]? = some lw →
        lv.fixedSlot = none ∨ lw.fixedSlot = none → d'.firstSlot v = some s →
        d'.firstSlot w = some t → lv.Covers s j → lw.Covers t j → ¬ liveness.Meets v w) ∧
      IsGreatest (frameSizes d.reservedSlots.toNat d.locals d'.firstSlot) frame.toNat) ∧
    ∃ plan size, FirstFit d.locals liveness plan ∧
      (∀ other, FirstFit d.locals liveness other → ∀ v < d.locals.size, other v = plan v) ∧
      IsGreatest (frameSizes d.reservedSlots.toNat d.locals plan) size ∧
      ((∃ fault d', allocateSlots liveness d = (.error fault, d')) ↔ 65535 < size) ∧
      ∀ fault d', allocateSlots liveness d = (.error fault, d') →
        ∃ need, fault = .maxLocalsOverflow need := by
  obtain ⟨f, -, rfl⟩ := analysed
  have ranged := Liveness.ranged_ofFlow f d.locals.size
  generalize Liveness.ofFlow f d.locals.size = liveness at ranged ⊢
  obtain ⟨plan, fit⟩ := exists_firstFit d.locals liveness
  obtain ⟨size, greatest⟩ := exists_size d.reservedSlots.toNat d.locals plan
  have outcome := allocateSlots_planned reachable.valid.fixed ranged fit greatest
  refine ⟨?_, plan, size, fit, fun other fit' v inside => fit.unique fit' inside, greatest, ?_, ?_⟩
  · intro frame d' allocated
    rcases outcome with ⟨room, d'', allocated', slots⟩ | ⟨-, need, d'', failed⟩
    · cases allocated.symm.trans allocated'
      have fit' : FirstFit d.locals liveness d'.firstSlot := fit.congr slots
      refine ⟨fit', fun v w lv lw s t j distinct found found' free planned planned' =>
        fit'.apart distinct found found' free planned planned', ?_⟩
      rw [frameSizes_congr slots, UInt16.toNat_ofNat_of_lt' (Nat.lt_succ_of_le room)]
      exact greatest
    · cases allocated.symm.trans failed
  · constructor
    · rintro ⟨fault, d', failed⟩
      rcases outcome with ⟨-, d'', allocated, -⟩ | ⟨past, -⟩
      · cases failed.symm.trans allocated
      · exact past
    · intro past
      rcases outcome with ⟨room, -⟩ | ⟨-, need, d', failed⟩
      · omega
      · exact ⟨_, d', failed⟩
  · intro fault d' failed
    rcases outcome with ⟨-, d'', allocated, -⟩ | ⟨-, need, d'', failed'⟩
    · cases failed.symm.trans allocated
    · cases failed.symm.trans failed'
      exact ⟨need, rfl⟩

/-- Four locals that are live together, one of them with a fixed slot and one with two slots, one
that is live after them, and one that is never read. -/
def crowding : Draft :=
  let d := (empty 0).createLocal none .int none |>.2.createLocal none .long none
    |>.2.createLocal none .int (some 1) |>.2.createLocal none .int none
    |>.2.createLocal none .int none |>.2.createLocal none .int none |>.2
  let d := (push (.load ⟨0, 0⟩ .int) d).2
  let d := (push (.load ⟨0, 1⟩ .long) d).2
  let d := (push (.load ⟨0, 2⟩ .int) d).2
  let d := (push (.load ⟨0, 3⟩ .int) d).2
  let d := (push (.store ⟨0, 4⟩ .int false) d).2
  let d := (push (.load ⟨0, 4⟩ .int) d).2
  (push (.store ⟨0, 5⟩ .int false) d).2

theorem reachable_crowding : crowding.Reachable :=
  (((((((((((((Reachable.empty 0).createLocal none .int none).createLocal none .long
    none).createLocal none .int (some 1)).createLocal none .int none).createLocal none .int
    none).createLocal none .int none).push _).push _).push _).push _).push _).push _).push _

/-- A local past the end of the largest frame. -/
def towering : Draft := ((empty 0).createLocal none .int (some 65535)).2

theorem allocateSlots_firstFit_crowding :
    (crowding.Reachable ∧ ∃ liveness slotted, crowding.Analysed liveness ∧
      allocateSlots liveness crowding = (.ok 5, slotted) ∧
      (List.range 6).map slotted.firstSlot = [some 0, some 2, some 1, some 4, some 0, none] ∧
      FirstFit crowding.locals liveness slotted.firstSlot ∧
      IsGreatest (frameSizes 0 crowding.locals slotted.firstSlot) 5) ∧
    (towering.Reachable ∧ ∃ liveness slotted plan size, towering.Analysed liveness ∧
      allocateSlots liveness towering = (.error (.maxLocalsOverflow 65536), slotted) ∧
      FirstFit towering.locals liveness plan ∧
      IsGreatest (frameSizes 0 towering.locals plan) size ∧ 65535 < size) := by
  constructor
  · obtain ⟨f, flow⟩ := exists_flow reachable_crowding.valid ⟨by decide, by decide⟩
    have computed : crowding.flow.toOption.map (fun f =>
        ((allocateSlots (.ofFlow f 6) crowding).1,
          (List.range 6).map (allocateSlots (.ofFlow f 6) crowding).2.firstSlot)) =
        some (.ok 5, [some 0, some 2, some 1, some 4, some 0, none]) := by decide +kernel
    rw [flow] at computed
    obtain ⟨result, slots⟩ := Prod.mk.inj (Option.some.inj computed)
    have allocated : allocateSlots (.ofFlow f 6) crowding =
        (.ok 5, (allocateSlots (.ofFlow f 6) crowding).2) := by rw [← result, Prod.mk.eta]
    have analysed : crowding.Analysed (.ofFlow f 6) := ⟨f, flow, rfl⟩
    obtain ⟨fit, -, greatest⟩ :=
      (allocateSlots_firstFit reachable_crowding analysed).1 5 _ allocated
    exact ⟨reachable_crowding, _, _, analysed, allocated, slots, fit, greatest⟩
  · have reachable : towering.Reachable := (Reachable.empty 0).createLocal none .int (some 65535)
    obtain ⟨f, flow⟩ := exists_flow reachable.valid ⟨by decide, by decide⟩
    have analysed : towering.Analysed (.ofFlow f 1) := ⟨f, flow, rfl⟩
    obtain ⟨-, plan, size, fit, -, greatest, fails, -⟩ :=
      allocateSlots_firstFit reachable analysed
    have failed : allocateSlots (.ofFlow f 1) towering =
        (.error (.maxLocalsOverflow 65536), (allocateSlots (.ofFlow f 1) towering).2) := by
      cases flow
      rfl
    exact ⟨reachable, _, _, plan, size, analysed, failed, fit, greatest,
      fails.mp ⟨_, _, failed⟩⟩

end Draft

end JvmAssembly
