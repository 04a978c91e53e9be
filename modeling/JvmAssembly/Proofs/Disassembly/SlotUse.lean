import Mathlib
import JvmAssembly.Disassembly.Script

/-!
Which local a slot stands for, followed through a sequence of instructions in the order of the code.
A slot keeps its local until it is used as another kind of value, and a local that is made later is
never one that was there before.
-/
namespace JvmAssembly

namespace Decoded

/-- The slot of an instruction on a local, with the kind of value it is used as. -/
def touched? : Decoded → Option (UInt16 × LocalKind)
  | .access kind slot _ => some (slot, kind)
  | .increment slot _ => some (slot, .int)
  | .ret slot => some (slot, .reference)
  | _ => none

def Touches (x : Decoded) (slot : UInt16) (kind : LocalKind) : Prop :=
  x.touched? = some (slot, kind)

/-- The slot is not used as any other kind of value. -/
def Respects (x : Decoded) (slot : UInt16) (kind : LocalKind) : Prop :=
  ∀ other, x.Touches slot other → other = kind

end Decoded

/-- What each slot stands for, and how many locals were made. -/
structure SlotUse (loc : Type) where
  bound : UInt16 → Option (Handle loc × LocalKind)
  made : Nat

namespace SlotUse

variable {loc : Type}

/-- The local that a slot stands for, if its kind is the one asked for. -/
def find? (u : SlotUse loc) (slot : UInt16) (kind : LocalKind) : Option (Handle loc) :=
  match u.bound slot with
  | some (v, existing) => if existing = kind then some v else none
  | none => none

/-- The local for a use of a slot. -/
def handle (u : SlotUse loc) (slot : UInt16) (kind : LocalKind) : Handle loc :=
  (u.find? slot kind).getD (.made u.made)

/-- What the slots stand for after a use. -/
def use (u : SlotUse loc) (slot : UInt16) (kind : LocalKind) : SlotUse loc :=
  match u.find? slot kind with
  | some _ => u
  | none => ⟨Function.update u.bound slot (some (.made u.made, kind)), u.made + 1⟩

def touch (u : SlotUse loc) (x : Decoded) : SlotUse loc :=
  match x.touched? with
  | some (slot, kind) => u.use slot kind
  | none => u

/-- What the slots stand for after some instructions. -/
def after (u : SlotUse loc) (xs : List Decoded) : SlotUse loc := xs.foldl touch u

/-- A local that was there before the given number of locals was made. -/
def Older (n : Nat) (h : Handle loc) : Prop := ∀ m, h = .made m → m < n

variable {u : SlotUse loc} {slot : UInt16} {kind : LocalKind}

theorem find?_eq_some {v : Handle loc} :
    u.find? slot kind = some v ↔ u.bound slot = some (v, kind) := by
  unfold find?
  split
  · rename_i w existing found
    rw [found]
    by_cases same : existing = kind
    · simp [same]
    · simp [same]
  · rename_i missing
    rw [missing]
    simp

theorem bound_use_self : (u.use slot kind).bound slot = some (u.handle slot kind, kind) := by
  unfold use handle
  cases found : u.find? slot kind with
  | some v => exact find?_eq_some.mp found
  | none => exact Function.update_self ..

theorem bound_use_other {slot' : UInt16} (other : slot' ≠ slot) :
    (u.use slot kind).bound slot' = u.bound slot' := by
  unfold use
  split
  · rfl
  · exact Function.update_of_ne other ..

theorem made_le_use : u.made ≤ (u.use slot kind).made := by
  unfold use
  split
  · exact Nat.le_refl _
  · exact Nat.le_succ _

theorem made_le_touch (x : Decoded) : u.made ≤ (u.touch x).made := by
  unfold touch
  split
  · exact made_le_use
  · exact Nat.le_refl _

theorem older_mono {n m : Nat} (le : n ≤ m) {h : Handle loc} (older : Older n h) : Older m h :=
  fun k same => Nat.lt_of_lt_of_le (older k same) le

/-- Slots stand for nothing but locals that are there. -/
def Grounded (u : SlotUse loc) : Prop :=
  ∀ slot v kind, u.bound slot = some (v, kind) → Older u.made v

theorem Grounded.handle (grounded : u.Grounded) :
    Older (u.use slot kind).made (u.handle slot kind) := by
  unfold use SlotUse.handle
  cases found : u.find? slot kind with
  | some v => exact grounded slot v kind (find?_eq_some.mp found)
  | none =>
      intro m same
      cases same
      exact Nat.lt_succ_self _

theorem Grounded.use (grounded : u.Grounded) : (u.use slot kind).Grounded := by
  intro slot' v kind' found
  by_cases same : slot' = slot
  · subst same
    rw [bound_use_self] at found
    cases found
    exact grounded.handle
  · rw [bound_use_other same] at found
    exact older_mono made_le_use (grounded slot' v kind' found)

theorem Grounded.after (grounded : u.Grounded) (xs : List Decoded) : (u.after xs).Grounded := by
  induction xs generalizing u with
  | nil => exact grounded
  | cons x xs ih =>
      refine ih ?_
      unfold touch
      split
      · exact grounded.use
      · exact grounded

/-- The slot does not stand for any old local as the kind of value. -/
def Renewed (u : SlotUse loc) (n : Nat) (slot : UInt16) (kind : LocalKind) : Prop :=
  ∀ v, u.bound slot = some (v, kind) → ¬ Older n v

theorem Renewed.handle {n : Nat} (renewed : u.Renewed n slot kind) (le : n ≤ u.made) :
    ¬ Older n (u.handle slot kind) := by
  unfold SlotUse.handle
  cases found : u.find? slot kind with
  | some v => exact renewed v (find?_eq_some.mp found)
  | none => exact fun older => Nat.not_lt.mpr le (older u.made rfl)

theorem Renewed.touch {n : Nat} (renewed : u.Renewed n slot kind) (le : n ≤ u.made) (x : Decoded) :
    (u.touch x).Renewed n slot kind := by
  unfold SlotUse.touch
  split
  · rename_i slot' kind' touched
    intro v found
    by_cases same : slot = slot'
    · subst same
      rw [bound_use_self] at found
      cases found
      exact renewed.handle le
    · rw [bound_use_other same] at found
      exact renewed v found
  · exact renewed

/-- Once a slot was used as something else, no old local comes back. -/
theorem Renewed.after {n : Nat} (renewed : u.Renewed n slot kind) (le : n ≤ u.made)
    (xs : List Decoded) : ¬ Older n ((u.after xs).handle slot kind) := by
  induction xs generalizing u with
  | nil => exact renewed.handle le
  | cons x xs ih => exact ih (renewed.touch le x) (Nat.le_trans le (made_le_touch x))

theorem touch_of_respects {x : Decoded} {g : Handle loc} (bound : u.bound slot = some (g, kind))
    (respects : x.Respects slot kind) : (u.touch x).bound slot = some (g, kind) := by
  unfold touch
  split
  · rename_i slot' kind' touched
    by_cases same : slot = slot'
    · subst same
      cases respects kind' touched
      rw [bound_use_self, SlotUse.handle, find?_eq_some.mpr bound, Option.getD_some]
    · rw [bound_use_other same, bound]
  · exact bound

/-- A slot stands for the local it stood for exactly if it was not used as anything else. -/
theorem handle_after_eq {g : Handle loc} (bound : u.bound slot = some (g, kind))
    (older : Older u.made g) (xs : List Decoded) :
    (u.after xs).handle slot kind = g ↔ ∀ x ∈ xs, x.Respects slot kind := by
  induction xs generalizing u with
  | nil =>
      have found : u.handle slot kind = g := by
        rw [SlotUse.handle, find?_eq_some.mpr bound, Option.getD_some]
      exact ⟨fun _ => List.forall_mem_nil _, fun _ => found⟩
  | cons x xs ih =>
      rw [List.forall_mem_cons]
      by_cases respects : x.Respects slot kind
      · rw [and_iff_right respects]
        exact ih (touch_of_respects bound respects) (older_mono (made_le_touch x) older)
      · refine ⟨fun same => ?_, fun h => absurd h.1 respects⟩
        simp only [Decoded.Respects, not_forall] at respects
        obtain ⟨other, touched, different⟩ := respects
        have renewed : (u.touch x).Renewed u.made slot kind := by
          intro v found
          rw [SlotUse.touch, touched] at found
          dsimp only at found
          rw [bound_use_self] at found
          cases found
          exact absurd rfl different
        exact absurd (same ▸ older) (renewed.after (made_le_touch x) xs)

theorem forall_mem_take {xs : List Decoded} {i : Nat} {p : Decoded → Prop} :
    (∀ x ∈ xs.take i, p x) ↔ ∀ m < i, ∀ y, xs[m]? = some y → p y := by
  constructor
  · intro all m before y there
    exact all y (List.mem_of_getElem? (i := m) (by rwa [List.getElem?_take, if_pos before]))
  · intro all y member
    obtain ⟨m, found⟩ := List.mem_iff_getElem?.mp member
    rw [List.getElem?_take] at found
    split at found
    · rename_i before
      exact all m before y found
    · cases found

theorem after_append (u : SlotUse loc) (xs ys : List Decoded) :
    u.after (xs ++ ys) = (u.after xs).after ys :=
  List.foldl_append

/-- Two uses of a slot as one kind are of one local exactly if the slot is not used as another kind
between them. -/
theorem handle_eq_handle (grounded : u.Grounded) {xs : List Decoded} {i j : Nat} {x : Decoded}
    (before : i < j) (here : xs[i]? = some x) (touches : x.Touches slot kind) :
    (u.after (xs.take j)).handle slot kind = (u.after (xs.take i)).handle slot kind ↔
      ∀ m y, i < m → m < j → xs[m]? = some y → y.Respects slot kind := by
  have split : xs.take j = (xs.take i ++ [x]) ++ (xs.take j).drop (i + 1) := by
    have first := List.take_append_drop (i + 1) (xs.take j)
    rw [List.take_take, Nat.min_eq_left before, List.take_add_one, here] at first
    exact first.symm
  have mid : ∀ (m : Nat) (y : Decoded), ((xs.take j).drop (i + 1))[m]? = some y ↔
      i + 1 + m < j ∧ xs[i + 1 + m]? = some y := by
    intro m y
    rw [List.getElem?_drop, List.getElem?_take]
    split <;> simp_all
  have use : u.after (xs.take i ++ [x]) = (u.after (xs.take i)).use slot kind := by
    rw [after_append, after, List.foldl_cons, List.foldl_nil, touch, touches]
  rw [split, after_append, use, handle_after_eq bound_use_self (grounded.after _).handle]
  constructor
  · intro all m y above below found
    refine all y (List.mem_of_getElem? (i := m - (i + 1)) ((mid _ y).mpr ?_))
    rw [Nat.add_sub_of_le above]
    exact ⟨below, found⟩
  · intro all y member
    obtain ⟨m, found⟩ := List.mem_iff_getElem?.mp member
    obtain ⟨below, there⟩ := (mid m y).mp found
    exact all (i + 1 + m) y (by omega) below there

/-- The same in any order of the two. -/
theorem handle_eq_iff (grounded : u.Grounded) {xs : List Decoded} {i j : Nat} {x y : Decoded}
    (here : xs[i]? = some x) (touches : x.Touches slot kind) (there : xs[j]? = some y)
    (touches' : y.Touches slot kind) :
    (u.after (xs.take j)).handle slot kind = (u.after (xs.take i)).handle slot kind ↔
      ∀ m z, min i j < m → m < max i j → xs[m]? = some z → z.Respects slot kind := by
  rcases Nat.lt_trichotomy i j with before | rfl | behind
  · rw [handle_eq_handle grounded before here touches, Nat.min_eq_left (Nat.le_of_lt before),
      Nat.max_eq_right (Nat.le_of_lt before)]
  · refine ⟨fun _ m z above below => ?_, fun _ => rfl⟩
    rw [Nat.min_self] at above
    rw [Nat.max_self] at below
    exact absurd below (Nat.lt_asymm above)
  · rw [eq_comm, handle_eq_handle grounded behind there touches',
      Nat.min_eq_right (Nat.le_of_lt behind), Nat.max_eq_left (Nat.le_of_lt behind)]

end SlotUse

end JvmAssembly
