import Mathlib
import JvmAssembly.Fault

/-!
Computations that may fail: when they succeed, what they fail with, and those with a state that
outlasts a failure.
-/
namespace JvmAssembly

variable {α β : Type}

theorem bind_eq_ok {x : Except Fault α} {f : α → Except Fault β} {b : β} :
    x >>= f = .ok b ↔ ∃ a, x = .ok a ∧ f a = .ok b := by
  cases x with
  | error fault => simp [bind, Except.bind]
  | ok a => simp [bind, Except.bind]

theorem bind_unit_eq_ok {x : Except Fault Unit} {f : Unit → Except Fault β} {b : β} :
    x >>= f = .ok b ↔ x = .ok () ∧ f () = .ok b := by
  rw [bind_eq_ok]
  exact ⟨fun ⟨_, hx, hf⟩ => ⟨hx, hf⟩, fun ⟨hx, hf⟩ => ⟨(), hx, hf⟩⟩

theorem forM_eq_ok {f : α → Except Fault Unit} {xs : List α} :
    xs.forM f = .ok () ↔ ∀ x ∈ xs, f x = .ok () := by
  induction xs with
  | nil => simp [pure, Except.pure]
  | cons x xs ih =>
      change f x >>= (fun _ => xs.forM f) = .ok () ↔ _
      rw [bind_unit_eq_ok, List.forall_mem_cons, ← ih]

theorem mapM_eq_ok {f : α → Except Fault β} {xs : List α} {ys : List β} :
    xs.mapM f = .ok ys ↔ List.Forall₂ (fun x y => f x = .ok y) xs ys := by
  induction xs generalizing ys with
  | nil => simp [pure, Except.pure, eq_comm]
  | cons x xs ih =>
      rw [List.mapM_cons, bind_eq_ok]
      constructor
      · rintro ⟨y, hy, rest⟩
        obtain ⟨ys', hys, last⟩ := bind_eq_ok.mp rest
        cases last
        exact .cons hy (ih.mp hys)
      · rintro (_ | ⟨hy, rest⟩)
        exact ⟨_, hy, bind_eq_ok.mpr ⟨_, ih.mpr rest, rfl⟩⟩

theorem exists_forall₂ {R : α → β → Prop} {xs : List α} (h : ∀ x ∈ xs, ∃ y, R x y) :
    ∃ ys, List.Forall₂ R xs ys := by
  induction xs with
  | nil => exact ⟨[], .nil⟩
  | cons x xs ih =>
      rw [List.forall_mem_cons] at h
      obtain ⟨y, hy⟩ := h.1
      obtain ⟨ys, hys⟩ := ih h.2
      exact ⟨y :: ys, .cons hy hys⟩

theorem exists_mapM_eq_ok {f : α → Except Fault β} {xs : List α}
    (h : ∀ x ∈ xs, ∃ y, f x = .ok y) : ∃ ys, xs.mapM f = .ok ys := by
  obtain ⟨ys, each⟩ := exists_forall₂ h
  exact ⟨ys, mapM_eq_ok.mpr each⟩

theorem exists_of_forall₂ {R : α → β → Prop} {xs : List α} {ys : List β}
    (each : List.Forall₂ R xs ys) {x : α} (member : x ∈ xs) : ∃ y ∈ ys, R x y := by
  induction each with
  | nil => cases member
  | cons one _ ih =>
      rcases List.mem_cons.mp member with rfl | later
      · exact ⟨_, List.mem_cons_self, one⟩
      · obtain ⟨y, there, related⟩ := ih later
        exact ⟨y, List.mem_cons_of_mem _ there, related⟩

/-- What two steps do to each element, they do to all of them one after the other. -/
theorem forall₂_exists {γ : Type} {R : α → β → Prop} {S : β → γ → Prop} {xs : List α}
    {zs : List γ} : List.Forall₂ (fun x z => ∃ y, R x y ∧ S y z) xs zs ↔
      ∃ ys, List.Forall₂ R xs ys ∧ List.Forall₂ S ys zs := by
  constructor
  · intro each
    induction each with
    | nil => exact ⟨[], .nil, .nil⟩
    | cons one _ ih =>
        obtain ⟨y, first, second⟩ := one
        obtain ⟨ys, firsts, seconds⟩ := ih
        exact ⟨y :: ys, .cons first firsts, .cons second seconds⟩
  · rintro ⟨ys, firsts, seconds⟩
    induction firsts generalizing zs with
    | nil =>
        cases seconds
        exact .nil
    | cons first _ ih =>
        cases seconds with
        | cons second seconds => exact .cons ⟨_, first, second⟩ (ih seconds)

section FailsWith

variable {α β : Type} {kind kind' : Fault → Prop} {x : Except Fault α} {f : α → Except Fault β}

/-- Fails with a fault of the kind, if at all. -/
def FailsWith (kind : Fault → Prop) (x : Except Fault α) : Prop :=
  ∀ fault, x = .error fault → kind fault

theorem failsWith_ok (a : α) : FailsWith kind (.ok a : Except Fault α) := by
  intro fault failed
  cases failed

theorem failsWith_error {fault : Fault} (holds : kind fault) :
    FailsWith kind (.error fault : Except Fault α) := by
  intro fault' failed
  cases failed
  exact holds

theorem FailsWith.bind (first : FailsWith kind x) (later : ∀ a, x = .ok a → FailsWith kind (f a)) :
    FailsWith kind (x >>= f) := by
  cases x with
  | error fault => exact failsWith_error (first fault rfl)
  | ok a => exact later a rfl

theorem failsWith_mapM {g : β → Except Fault α} {xs : List β}
    (each : ∀ x ∈ xs, FailsWith kind (g x)) : FailsWith kind (xs.mapM g) := by
  induction xs with
  | nil => exact failsWith_ok []
  | cons x xs ih =>
      rw [List.forall_mem_cons] at each
      rw [List.mapM_cons]
      exact each.1.bind fun _ _ => (ih each.2).bind fun _ _ => failsWith_ok _

end FailsWith

section State

variable {σ : Type}

theorem run_bind (x : ExceptT Fault (StateM σ) α) (f : α → ExceptT Fault (StateM σ) β) (s : σ) :
    (x >>= f) s = match x s with
      | (.ok a, s') => f a s'
      | (.error fault, s') => (.error fault, s') := by
  simp only [bind, ExceptT.bind, ExceptT.mk, ExceptT.bindCont, StateT.bind]
  obtain ⟨r, s'⟩ := x s
  cases r <;> rfl

theorem run_bind_eq_ok {x : ExceptT Fault (StateM σ) α} {f : α → ExceptT Fault (StateM σ) β}
    {s s' : σ} {b : β} : (x >>= f) s = (.ok b, s') ↔
      ∃ a s₁, x s = (.ok a, s₁) ∧ f a s₁ = (.ok b, s') := by
  rw [run_bind]
  cases x s with
  | mk r s₁ =>
      cases r with
      | error fault =>
          constructor
          · intro ran
            cases ran
          · rintro ⟨a, s₂, first, _⟩
            cases first
      | ok a =>
          constructor
          · intro ran
            exact ⟨a, s₁, rfl, ran⟩
          · rintro ⟨a, s₂, first, ran⟩
            cases first
            exact ran

theorem run_discard (x : ExceptT Fault (StateM σ) α) (s : σ) :
    (discard x : ExceptT Fault (StateM σ) Unit) s = ((x s).1.map fun _ => (), (x s).2) := by
  simp only [discard, Functor.discard, Functor.mapConst, ExceptT.map, ExceptT.mk, Function.const,
    bind, StateT.bind, Function.comp]
  obtain ⟨r, s'⟩ := x s
  cases r <;> rfl

/-- From a state with the invariant and the first property comes one with the invariant again, and
the second property holds of the outcome if there is one. -/
def Maintains (I P : σ → Prop) (x : ExceptT Fault (StateM σ) α) (Q : α → σ → Prop) : Prop :=
  ∀ s, I s → P s → I (x s).2 ∧ ∀ a, (x s).1 = .ok a → Q a (x s).2

/-- Keeps the invariant whatever comes of it. -/
def Preserves (I : σ → Prop) (x : ExceptT Fault (StateM σ) α) : Prop :=
  Maintains I (fun _ => True) x fun _ _ => True

variable {I P : σ → Prop} {Q : α → σ → Prop} {R : β → σ → Prop} {x : ExceptT Fault (StateM σ) α}
  {f : α → ExceptT Fault (StateM σ) β}

theorem Maintains.bind (first : Maintains I P x Q) (later : ∀ a, Maintains I (Q a) (f a) R) :
    Maintains I P (x >>= f) R := by
  intro s before holds
  obtain ⟨left, result⟩ := first s before holds
  rw [run_bind]
  cases ran : x s with
  | mk r s' =>
      rw [ran] at left result
      cases r with
      | ok a => exact later a s' left (result a rfl)
      | error fault => exact ⟨left, by rintro _ ⟨⟩⟩

theorem preserves_of_eq (same : ∀ s, (x s).2 = s) : Preserves I x :=
  fun s before _ => ⟨(same s).symm ▸ before, fun _ _ => trivial⟩

theorem Preserves.bind (first : Preserves I x) (later : ∀ a, Preserves I (f a)) :
    Preserves I (x >>= f) :=
  Maintains.bind first later

theorem Maintains.discard (h : Maintains I P x Q) :
    Maintains I P (discard x : ExceptT Fault (StateM σ) Unit) fun _ s => ∃ a, Q a s := by
  intro s before holds
  obtain ⟨left, result⟩ := h s before holds
  rw [run_discard]
  refine ⟨left, fun _ done => ?_⟩
  cases ran : (x s).1 with
  | error fault =>
      rw [ran] at done
      cases done
  | ok a => exact ⟨a, result a ran⟩

theorem preserves_forM {xs : List β} {f : β → ExceptT Fault (StateM σ) Unit}
    (h : ∀ x, Preserves I (f x)) : Preserves I (xs.forM f) := by
  induction xs with
  | nil => exact preserves_of_eq fun _ => rfl
  | cons x xs ih => exact (h x).bind fun _ => ih

end State

end JvmAssembly
