import Mathlib
import JvmAssembly.Draft.Slots
import JvmAssembly.Proofs.BitSet

/-!
Slot allocation keeps locals apart. A slot remembers the positions at which some local lives in
it; a local only goes where none of its own positions is taken, so two locals that are live at one
position never share a slot unless both of their slots were fixed beforehand.
-/
namespace JvmAssembly.Allocation

/-- Some local lives in the slot at the position. -/
def holds (occupied : Array BitSet) (slot i : Nat) : Bool :=
  match occupied[slot]? with
  | some taken => taken.contains i
  | none => false

/-- The sets of all slots range over `n` positions. -/
def Fits (n : Nat) (occupied : Array BitSet) : Prop :=
  ∀ (slot : Nat) (taken : BitSet), occupied[slot]? = some taken → taken.Sound ∧ taken.capacity = n

variable {n : Nat} {occupied : Array BitSet} {live : BitSet}

/-- The sets with room for one more slot. -/
def padded (occupied : Array BitSet) (live : BitSet) (slot : Nat) : Array BitSet :=
  occupied ++ Array.replicate (slot + 1 - occupied.size) (.empty live.capacity)

theorem padded_getElem? (occupied : Array BitSet) (live : BitSet) (slot j : Nat) :
    (padded occupied live slot)[j]? =
      if j < occupied.size then occupied[j]?
      else if j ≤ slot then some (.empty live.capacity) else none := by
  unfold padded
  rw [Array.getElem?_append, Array.getElem?_replicate]
  by_cases inside : j < occupied.size
  · simp only [inside, if_true]
  · simp only [inside, if_false]
    congr 1
    apply propext
    omega

theorem occupy_getElem? (occupied : Array BitSet) (live : BitSet) (slot j : Nat) :
    (occupy occupied live slot)[j]? =
      if slot = j then ((padded occupied live slot)[j]?).map fun taken => (taken.union live).1
      else (padded occupied live slot)[j]? := by
  rw [occupy, Array.getElem?_modify]
  rfl

theorem fits_padded (fits : Fits n occupied) (capacity : live.capacity = n) (slot : Nat) :
    Fits n (padded occupied live slot) := by
  intro j taken found
  rw [padded_getElem?] at found
  split at found
  · exact fits j taken found
  · split at found
    · cases found
      exact ⟨BitSet.sound_empty _, capacity⟩
    · cases found

theorem holds_padded (occupied : Array BitSet) (live : BitSet) (slot j i : Nat) :
    holds (padded occupied live slot) j i = holds occupied j i := by
  unfold holds
  rw [padded_getElem?]
  by_cases inside : j < occupied.size
  · rw [if_pos inside]
  · rw [if_neg inside, Array.getElem?_eq_none (Nat.not_lt.mp inside)]
    by_cases reached : j ≤ slot
    · rw [if_pos reached]
      exact BitSet.contains_empty _ i
    · rw [if_neg reached]

theorem fits_occupy (fits : Fits n occupied) (sound : live.Sound) (capacity : live.capacity = n)
    (slot : Nat) : Fits n (occupy occupied live slot) := by
  intro j taken found
  rw [occupy_getElem?] at found
  split at found
  · obtain ⟨old, stored, rfl⟩ := Option.map_eq_some_iff.mp found
    obtain ⟨oldSound, oldCapacity⟩ := fits_padded fits capacity slot j old stored
    exact ⟨BitSet.sound_union oldSound sound (oldCapacity.trans capacity.symm), oldCapacity⟩
  · exact fits_padded fits capacity slot j taken found

theorem holds_occupy (fits : Fits n occupied) (sound : live.Sound) (capacity : live.capacity = n)
    (slot j i : Nat) :
    holds (occupy occupied live slot) j i =
      (holds occupied j i || (decide (slot = j) && live.contains i)) := by
  rw [← holds_padded occupied live slot j i]
  unfold holds
  rw [occupy_getElem?]
  by_cases same : slot = j
  · subst same
    simp only [if_true, decide_true, Bool.true_and]
    cases stored : (padded occupied live slot)[slot]? with
    | none =>
        rw [padded_getElem?] at stored
        split at stored
        · rename_i inside
          rw [Array.getElem?_eq_getElem inside] at stored
          cases stored
        · simp at stored
    | some old =>
        obtain ⟨oldSound, oldCapacity⟩ := fits_padded fits capacity slot slot old stored
        exact BitSet.contains_union oldSound sound (oldCapacity.trans capacity.symm) i
  · simp only [same, if_false, decide_false, Bool.false_and, Bool.or_false]

theorem occupyAll_succ (occupied : Array BitSet) (live : BitSet) (slot width : Nat) :
    occupyAll occupied live slot (width + 1) =
      occupy (occupyAll occupied live slot width) live (slot + width) := by
  simp only [occupyAll, List.range_succ, List.foldl_append, List.foldl_cons, List.foldl_nil]

theorem fits_occupyAll (fits : Fits n occupied) (sound : live.Sound) (capacity : live.capacity = n)
    (slot width : Nat) : Fits n (occupyAll occupied live slot width) := by
  induction width with
  | zero => exact fits
  | succ width ih =>
      rw [occupyAll_succ]
      exact fits_occupy ih sound capacity (slot + width)

theorem holds_occupyAll (fits : Fits n occupied) (sound : live.Sound)
    (capacity : live.capacity = n) (slot width j i : Nat) :
    holds (occupyAll occupied live slot width) j i =
      (holds occupied j i || (decide (slot ≤ j ∧ j < slot + width) && live.contains i)) := by
  induction width with
  | zero =>
      have nowhere : ¬ (slot ≤ j ∧ j < slot + 0) := by omega
      simp only [nowhere, decide_false, Bool.false_and, Bool.or_false]
      rfl
  | succ width ih =>
      rw [occupyAll_succ,
        holds_occupy (fits_occupyAll fits sound capacity slot width) sound capacity, ih,
        Bool.or_assoc, ← Bool.and_or_distrib_right, ← Bool.decide_or]
      congr 3
      apply propext
      omega

theorem free_of_conflicts_eq_false (fits : Fits n occupied) (sound : live.Sound)
    (capacity : live.capacity = n) {slot : Nat} (h : conflicts occupied live slot = false)
    (i : Nat) :
    ¬ (holds occupied slot i = true ∧ live.contains i = true) := by
  unfold holds
  cases stored : occupied[slot]? with
  | none => exact fun both => Bool.false_ne_true both.1
  | some taken =>
      rw [conflicts, stored] at h
      obtain ⟨takenSound, takenCapacity⟩ := fits slot taken stored
      exact BitSet.contains_of_intersects_false takenSound sound
        (takenCapacity.trans capacity.symm) h i

/-- The place that is found has room in each of its slots. -/
theorem firstFit_free (occupied : Array BitSet) (live : BitSet) (width : Nat) {k : Nat}
    (inside : k < width) : conflicts occupied live (firstFit occupied live width + k) = false := by
  unfold firstFit
  dsimp only
  cases found : (List.range occupied.size).find? fun slot =>
      (List.range width).all fun i => !conflicts occupied live (slot + i) with
  | some slot =>
      have fit := List.find?_some found
      rw [List.all_eq_true] at fit
      have free := fit k (List.mem_range.mpr inside)
      rwa [Bool.not_eq_true'] at free
  | none =>
      simp only [Option.getD_none, conflicts]
      rw [Array.getElem?_eq_none (Nat.le_add_right _ _)]

theorem free_of_firstFit (fits : Fits n occupied) (sound : live.Sound)
    (capacity : live.capacity = n) {width j : Nat} (low : firstFit occupied live width ≤ j)
    (high : j < firstFit occupied live width + width) (i : Nat) :
    ¬ (holds occupied j i = true ∧ live.contains i = true) := by
  have free := firstFit_free occupied live width (Nat.sub_lt_left_of_lt_add low high)
  rw [Nat.add_sub_cancel' low] at free
  exact free_of_conflicts_eq_false fits sound capacity free i

/-- Locals that differ in nothing but slots that were not fixed. -/
structure Reslotted (before after : Array LocalInfo) : Prop where
  size : after.size = before.size
  info : ∀ (v : Nat) (l : LocalInfo), before[v]? = some l →
    ∃ slot, after[v]? = some { l with slot } ∧ (l.fixedSlot ≠ none → slot = l.slot)

theorem Reslotted.refl (locals : Array LocalInfo) : Reslotted locals locals :=
  ⟨rfl, fun _ l found => ⟨l.slot, found, fun _ => rfl⟩⟩

theorem Reslotted.trans {x y z : Array LocalInfo} (first : Reslotted x y) (second : Reslotted y z) :
    Reslotted x z := by
  refine ⟨second.size.trans first.size, ?_⟩
  intro v l found
  obtain ⟨slot, stored, kept⟩ := first.info v l found
  obtain ⟨slot', stored', kept'⟩ := second.info v _ stored
  exact ⟨slot', stored', fun fixed => (kept' fixed).trans (kept fixed)⟩

theorem Reslotted.origin {before after : Array LocalInfo} (moved : Reslotted before after) {v : Nat}
    {l : LocalInfo} (found : after[v]? = some l) :
    ∃ old, before[v]? = some old ∧ l = { old with slot := l.slot } ∧
      (old.fixedSlot ≠ none → l.slot = old.slot) := by
  have inside : v < before.size := moved.size ▸ (Array.getElem?_eq_some_iff.mp found).1
  obtain ⟨slot, stored, kept⟩ := moved.info v before[v] (Array.getElem?_eq_getElem inside)
  rw [found] at stored
  cases stored
  exact ⟨before[v], Array.getElem?_eq_getElem inside, rfl, kept⟩

theorem setSlot_getElem? (a : Allocation) (v : Nat) (slot : Option UInt16) (w : Nat) :
    (a.setSlot v slot).locals[w]? =
      if v = w then (a.locals[w]?).map fun l => { l with slot } else a.locals[w]? := by
  rw [setSlot, Array.getElem?_modify]

theorem reslotted_setSlot {a : Allocation} {v : Nat} {l : LocalInfo} (found : a.locals[v]? = some l)
    (free : l.fixedSlot = none) (slot : Option UInt16) :
    Reslotted a.locals (a.setSlot v slot).locals := by
  refine ⟨by simp [setSlot], ?_⟩
  intro w l' stored
  rw [setSlot_getElem?]
  by_cases same : v = w
  · subst same
    rw [found] at stored
    cases stored
    exact ⟨slot, by rw [if_pos rfl, found, Option.map_some], fun fixed => absurd free fixed⟩
  · exact ⟨l'.slot, by rw [if_neg same, stored], fun _ => rfl⟩

theorem claim_locals (a : Allocation) (live : BitSet) (slot width : Nat) :
    (a.claim live slot width).locals = a.locals := rfl

theorem place_reslotted {liveness : Liveness} {v : Nat} {a a' : Allocation}
    {result : Except Fault Unit} (h : place liveness v a = (result, a')) :
    Reslotted a.locals a'.locals := by
  unfold place at h
  split at h
  · rename_i name type slot found
    dsimp only at h
    split at h
    · cases h
      exact reslotted_setSlot found rfl none
    · split at h
      · cases h
        exact .refl _
      · cases h
        rw [← claim_locals a (liveness.live v) _ _] at found
        exact reslotted_setSlot found rfl _
  · cases h
    exact .refl _

theorem placeAll_reslotted {liveness : Liveness} {vs : List Nat} {a a' : Allocation}
    {result : Except Fault Unit} (h : placeAll liveness vs a = (result, a')) :
    Reslotted a.locals a'.locals := by
  induction vs generalizing a with
  | nil =>
      cases h
      exact .refl _
  | cons v vs ih =>
      unfold placeAll at h
      split at h
      · rename_i b placed
        exact (place_reslotted placed).trans (ih h)
      · rename_i fault b placed
        cases h
        exact place_reslotted placed

theorem claimFixed_locals (liveness : Liveness) (a : Allocation) (v : Nat) :
    (claimFixed liveness a v).locals = a.locals := by
  unfold claimFixed
  split <;> rfl

theorem foldl_claimFixed_locals (liveness : Liveness) (vs : List Nat) (a : Allocation) :
    (vs.foldl (claimFixed liveness) a).locals = a.locals := by
  induction vs generalizing a with
  | nil => rfl
  | cons v vs ih => rw [List.foldl_cons, ih, claimFixed_locals]

end JvmAssembly.Allocation

namespace JvmAssembly

/-- The slot is one of those that the local takes up. -/
def LocalInfo.Occupies (l : LocalInfo) (j : Nat) : Prop :=
  ∃ slot, l.slot = some slot ∧ slot.toNat ≤ j ∧ j < slot.toNat + l.kind.width

/-- Live sets of the first `count` locals range over `n` positions. -/
def Liveness.Ranged (liveness : Liveness) (n count : Nat) : Prop :=
  ∀ v < count, (liveness.live v).Sound ∧ (liveness.live v).capacity = n

namespace Allocation

/-- What is known of the locals that are done: their slots are recorded wherever they are live,
and those that are live together are apart unless both slots were fixed. -/
structure Packed (liveness : Liveness) (n : Nat) (done : Nat → Prop) (a : Allocation) : Prop where
  fits : Fits n a.occupied
  recorded : ∀ v l j i, done v → a.locals[v]? = some l → l.Occupies j →
    (liveness.live v).contains i = true → holds a.occupied j i = true
  served : ∀ v l i, done v → a.locals[v]? = some l → (liveness.live v).contains i = true →
    l.slot ≠ none
  apart : ∀ v w lv lw j i, done v → done w → v ≠ w → a.locals[v]? = some lv →
    a.locals[w]? = some lw → lv.fixedSlot = none ∨ lw.fixedSlot = none → lv.Occupies j →
    lw.Occupies j → ¬ ((liveness.live v).contains i = true ∧ (liveness.live w).contains i = true)

section Claims

variable {liveness : Liveness} {n : Nat} {done : Nat → Prop} {a : Allocation} {v : Nat}
  {l : LocalInfo} {name : Option String} {type : FieldType} {slot : Option UInt16}

theorem holds_claim (fits : Fits n a.occupied) {live : BitSet} (sound : live.Sound)
    (capacity : live.capacity = n) {slot width j i : Nat} (h : holds a.occupied j i = true) :
    holds (a.claim live slot width).occupied j i = true := by
  change holds (occupyAll a.occupied live slot width) j i = true
  rw [holds_occupyAll fits sound capacity, h, Bool.true_or]

theorem holds_claim_self (fits : Fits n a.occupied) {live : BitSet} (sound : live.Sound)
    (capacity : live.capacity = n) {slot width j i : Nat} (low : slot ≤ j) (high : j < slot + width)
    (h : live.contains i = true) : holds (a.claim live slot width).occupied j i = true := by
  change holds (occupyAll a.occupied live slot width) j i = true
  rw [holds_occupyAll fits sound capacity, h, decide_eq_true ⟨low, high⟩]
  simp

theorem onlyFixed_or
    (onlyFixed : ∀ w lw, done w → a.locals[w]? = some lw → lw.fixedSlot ≠ none)
    (found : a.locals[v]? = some l) (w : Nat) (lw : LocalInfo)
    (h : done w ∨ (w = v ∧ l.fixedSlot ≠ none)) (stored : a.locals[w]? = some lw) :
    lw.fixedSlot ≠ none := by
  rcases h with old | ⟨rfl, fixed⟩
  · exact onlyFixed w lw old stored
  · rw [found] at stored
    cases stored
    exact fixed

/-- Slots fixed beforehand are claimed without a look at the others. -/
theorem Packed.claimFixed (packed : Packed liveness n done a)
    (onlyFixed : ∀ w lw, done w → a.locals[w]? = some lw → lw.fixedSlot ≠ none)
    (found : a.locals[v]? = some l) (kept : ∀ slot, l.fixedSlot = some slot → l.slot = some slot)
    (sound : (liveness.live v).Sound) (capacity : (liveness.live v).capacity = n) :
    Packed liveness n (fun w => done w ∨ (w = v ∧ l.fixedSlot ≠ none))
      (claimFixed liveness a v) := by
  obtain ⟨name, type, fixedSlot, slot⟩ := l
  cases fixedSlot with
  | none =>
      have same : Allocation.claimFixed liveness a v = a := by
        simp only [Allocation.claimFixed, found]
      rw [same]
      simpa using packed
  | some fixed =>
      have slotFixed : slot = some fixed := kept fixed rfl
      subst slotFixed
      have step : Allocation.claimFixed liveness a v =
          a.claim (liveness.live v) fixed.toNat (LocalKind.ofType type).width := by
        simp only [Allocation.claimFixed, found]
      rw [step]
      refine ⟨fits_occupyAll packed.fits sound capacity _ _, ?_, ?_, ?_⟩
      · rintro w lw j i (old | ⟨rfl, -⟩) stored occupies alive
        · exact holds_claim packed.fits sound capacity
            (packed.recorded w lw j i old stored occupies alive)
        · rw [claim_locals, found] at stored
          cases stored
          obtain ⟨s, same, low, high⟩ := occupies
          cases same
          exact holds_claim_self packed.fits sound capacity low high alive
      · rintro w lw i (old | ⟨rfl, -⟩) stored alive
        · exact packed.served w lw i old stored alive
        · rw [claim_locals, found] at stored
          cases stored
          simp
      · intro u w lu lw j i doneU doneW _ storedU storedW free
        rcases free with h | h
        · exact absurd h (onlyFixed_or onlyFixed found u lu doneU storedU)
        · exact absurd h (onlyFixed_or onlyFixed found w lw doneW storedW)

theorem Packed.weaken {done' : Nat → Prop} (packed : Packed liveness n done a)
    (h : ∀ w, done' w → done w) : Packed liveness n done' a where
  fits := packed.fits
  recorded v l j i doneV := packed.recorded v l j i (h v doneV)
  served v l i doneV := packed.served v l i (h v doneV)
  apart v w lv lw j i doneV doneW := packed.apart v w lv lw j i (h v doneV) (h w doneW)

theorem packed_foldl_claimFixed (vs : List Nat) (packed : Packed liveness n done a)
    (onlyFixed : ∀ w lw, done w → a.locals[w]? = some lw → lw.fixedSlot ≠ none)
    (kept : ∀ l ∈ a.locals, ∀ slot, l.fixedSlot = some slot → l.slot = some slot)
    (ranged : liveness.Ranged n a.locals.size) :
    Packed liveness n
      (fun w => done w ∨ (w ∈ vs ∧ ∃ lw, a.locals[w]? = some lw ∧ lw.fixedSlot ≠ none))
      (vs.foldl (Allocation.claimFixed liveness) a) := by
  induction vs generalizing a done with
  | nil => simpa using packed
  | cons v vs ih =>
      rw [List.foldl_cons]
      have locals := claimFixed_locals liveness a v
      cases found : a.locals[v]? with
      | none =>
          have same : Allocation.claimFixed liveness a v = a := by
            simp only [Allocation.claimFixed, found]
          rw [same]
          refine (ih packed onlyFixed kept ranged).weaken ?_
          rintro w (old | ⟨member, lw, stored, fixed⟩)
          · exact .inl old
          · rcases List.mem_cons.mp member with rfl | later
            · rw [found] at stored
              cases stored
            · exact .inr ⟨later, lw, stored, fixed⟩
      | some l =>
          obtain ⟨sound, capacity⟩ := ranged v (Array.getElem?_eq_some_iff.mp found).1
          have step := packed.claimFixed onlyFixed found (kept l (Array.mem_of_getElem? found))
            sound capacity
          have rest := ih (a := Allocation.claimFixed liveness a v) step
            (locals.symm ▸ onlyFixed_or onlyFixed found) (locals.symm ▸ kept)
            (locals.symm ▸ ranged)
          refine rest.weaken ?_
          rintro w (old | ⟨member, lw, stored, fixed⟩)
          · exact .inl (.inl old)
          · rcases List.mem_cons.mp member with rfl | later
            · rw [found] at stored
              cases stored
              exact .inl (.inr ⟨rfl, fixed⟩)
            · exact .inr ⟨later, lw, locals.symm ▸ stored, fixed⟩

theorem toNat_ofNat_slot {slot width : Nat} (h : ¬ slot + width > 65535) :
    (UInt16.ofNat slot).toNat = slot := by
  rw [UInt16.toNat_ofNat']
  omega

/-- One more local is done if its slots are free of all that live together with it. -/
theorem Packed.extend {a' : Allocation} (packed : Packed liveness n done a) (l' : LocalInfo)
    (others : ∀ w, w ≠ v → a'.locals[w]? = a.locals[w]?) (self : a'.locals[v]? = some l')
    (fits : Fits n a'.occupied)
    (grows : ∀ j i, holds a.occupied j i = true → holds a'.occupied j i = true)
    (recorded : ∀ j i, l'.Occupies j → (liveness.live v).contains i = true →
      holds a'.occupied j i = true)
    (served : ∀ i, (liveness.live v).contains i = true → l'.slot ≠ none)
    (free : ∀ j i, l'.Occupies j → ¬ (holds a.occupied j i = true ∧
      (liveness.live v).contains i = true)) :
    Packed liveness n (fun w => done w ∨ w = v) a' := by
  have old : ∀ w, done w ∨ w = v → w ≠ v → done w := by
    rintro w (h | h) other
    · exact h
    · exact absurd h other
  refine ⟨fits, ?_, ?_, ?_⟩
  · intro w lw j i doneW stored occupies alive
    by_cases same : w = v
    · subst same
      rw [self] at stored
      cases stored
      exact recorded j i occupies alive
    · rw [others w same] at stored
      exact grows j i (packed.recorded w lw j i (old w doneW same) stored occupies alive)
  · intro w lw i doneW stored alive
    by_cases same : w = v
    · subst same
      rw [self] at stored
      cases stored
      exact served i alive
    · rw [others w same] at stored
      exact packed.served w lw i (old w doneW same) stored alive
  · intro u w lu lw j i doneU doneW distinct storedU storedW unfixed occU occW both
    by_cases sameU : u = v
    · subst sameU
      have other : w ≠ u := fun h => distinct h.symm
      rw [self] at storedU
      cases storedU
      rw [others w other] at storedW
      exact free j i occU
        ⟨packed.recorded w lw j i (old w doneW other) storedW occW both.2, both.1⟩
    · rw [others u sameU] at storedU
      by_cases sameW : w = v
      · subst sameW
        rw [self] at storedW
        cases storedW
        exact free j i occW
          ⟨packed.recorded u lu j i (old u doneU sameU) storedU occU both.1, both.2⟩
      · rw [others w sameW] at storedW
        exact packed.apart u w lu lw j i (old u doneU sameU) (old w doneW sameW) distinct storedU
          storedW unfixed occU occW both

/-- A local that is never live does without a slot. -/
theorem Packed.setSlot_none (packed : Packed liveness n done a)
    (found : a.locals[v]? = some ⟨name, type, none, slot⟩)
    (dead : ∀ i, ¬ (liveness.live v).contains i = true) :
    Packed liveness n (fun w => done w ∨ w = v) (a.setSlot v none) := by
  refine packed.extend ⟨name, type, none, none⟩ ?_ ?_ packed.fits (fun _ _ h => h) ?_ ?_ ?_
  · intro w other
    rw [setSlot_getElem?, if_neg (Ne.symm other)]
  · rw [setSlot_getElem?, if_pos rfl, found, Option.map_some]
  · exact fun j i _ alive => absurd alive (dead i)
  · exact fun i alive => absurd alive (dead i)
  · exact fun j i _ both => dead i both.2

/-- A local goes to the first place with room for all of its slots. -/
theorem Packed.setSlot_firstFit (packed : Packed liveness n done a)
    (found : a.locals[v]? = some ⟨name, type, none, slot⟩)
    (sound : (liveness.live v).Sound) (capacity : (liveness.live v).capacity = n) {first : Nat}
    (fit : firstFit a.occupied (liveness.live v) (LocalKind.ofType type).width = first)
    (room : ¬ first + (LocalKind.ofType type).width > 65535) :
    Packed liveness n (fun w => done w ∨ w = v)
      ((a.claim (liveness.live v) first (LocalKind.ofType type).width).setSlot v
        (some (UInt16.ofNat first))) := by
  have exactly := toNat_ofNat_slot room
  refine packed.extend ⟨name, type, none, some (UInt16.ofNat first)⟩ ?_ ?_
    (fits_occupyAll packed.fits sound capacity _ _) ?_ ?_ ?_ ?_
  · intro w other
    rw [setSlot_getElem?, if_neg (Ne.symm other)]
    rfl
  · rw [setSlot_getElem?, if_pos rfl, claim_locals, found, Option.map_some]
  · intro j i
    exact holds_claim packed.fits sound capacity
  · rintro j i ⟨s, same, low, high⟩ alive
    cases same
    rw [exactly] at low high
    exact holds_claim_self packed.fits sound capacity low high alive
  · simp
  · rintro j i ⟨s, same, low, high⟩
    cases same
    rw [exactly] at low high
    subst fit
    exact free_of_firstFit packed.fits sound capacity low high i

/-- A local that is placed goes where none of those done lives together with it. -/
theorem Packed.place {a' : Allocation} (packed : Packed liveness n done a)
    (found : a.locals[v]? = some l) (fixedDone : l.fixedSlot ≠ none → done v)
    (sound : (liveness.live v).Sound) (capacity : (liveness.live v).capacity = n)
    (h : place liveness v a = (.ok (), a')) :
    Packed liveness n (fun w => done w ∨ w = v) a' := by
  obtain ⟨name, type, fixedSlot, slot⟩ := l
  rw [Allocation.place, found] at h
  cases fixedSlot with
  | some fixed =>
      cases h
      refine packed.weaken ?_
      rintro w (old | rfl)
      · exact old
      · exact fixedDone (by simp)
  | none =>
      dsimp only at h
      split at h
      · rename_i empty
        cases h
        apply packed.setSlot_none found
        intro i alive
        rw [BitSet.isEmpty_eq_false sound alive] at empty
        cases empty
      · split at h
        · cases h
        · rename_i room
          cases h
          exact packed.setSlot_firstFit found sound capacity rfl room

theorem packed_placeAll {vs : List Nat} {a' : Allocation} (packed : Packed liveness n done a)
    (fixedDone : ∀ w lw, a.locals[w]? = some lw → lw.fixedSlot ≠ none → done w)
    (inside : ∀ v ∈ vs, v < a.locals.size) (ranged : liveness.Ranged n a.locals.size)
    (h : placeAll liveness vs a = (.ok (), a')) :
    Packed liveness n (fun w => done w ∨ w ∈ vs) a' := by
  induction vs generalizing a done with
  | nil =>
      cases h
      simpa using packed
  | cons v vs ih =>
      unfold placeAll at h
      split at h
      · rename_i b placed
        have moved := place_reslotted placed
        have bound := inside v (List.mem_cons_self ..)
        obtain ⟨sound, capacity⟩ := ranged v bound
        have found := Array.getElem?_eq_getElem bound
        have step := packed.place found (fixedDone v _ found) sound capacity placed
        have later : ∀ w ∈ vs, w < b.locals.size := by
          intro w member
          rw [moved.size]
          exact inside w (List.mem_cons_of_mem v member)
        refine (ih step ?_ later (moved.size.symm ▸ ranged) h).weaken ?_
        · intro w lw stored fixed
          obtain ⟨old, before, same, -⟩ := moved.origin stored
          rw [same] at fixed
          exact .inl (fixedDone w old before fixed)
        · rintro w (old | member)
          · exact .inl (.inl old)
          · rcases List.mem_cons.mp member with rfl | later
            · exact .inl (.inr rfl)
            · exact .inr later
      · cases h

end Claims

end Allocation

end JvmAssembly

namespace JvmAssembly.Draft

open Allocation

/-- Allocation changes nothing in a draft but slots of locals. -/
theorem allocateSlots_reslotted {liveness : Liveness} {d d' : Draft} {result : Except Fault UInt16}
    (h : allocateSlots liveness d = (result, d')) :
    d' = { d with locals := d'.locals } ∧ Reslotted d.locals d'.locals := by
  unfold allocateSlots at h
  dsimp only at h
  split at h
  · rename_i fault a placed
    cases h
    have step := placeAll_reslotted placed
    rw [foldl_claimFixed_locals] at step
    exact ⟨rfl, step⟩
  · rename_i a placed
    have step := placeAll_reslotted placed
    rw [foldl_claimFixed_locals] at step
    split at h
    · cases h
      exact ⟨rfl, step⟩
    · cases h
      exact ⟨rfl, step⟩

/-- After a successful allocation every live local has a slot, and two locals that are live at one
position have no slot in common unless the slots of both were fixed. -/
theorem allocateSlots_packed {liveness : Liveness} {n : Nat} {d d' : Draft} {frame : UInt16}
    (kept : ∀ l ∈ d.locals, ∀ slot, l.fixedSlot = some slot → l.slot = some slot)
    (ranged : liveness.Ranged n d.locals.size)
    (h : allocateSlots liveness d = (.ok frame, d')) :
    (∀ v l i, d'.locals[v]? = some l → (liveness.live v).contains i = true → l.slot ≠ none) ∧
      ∀ v w lv lw j i, v ≠ w → d'.locals[v]? = some lv → d'.locals[w]? = some lw →
        lv.fixedSlot = none ∨ lw.fixedSlot = none → lv.Occupies j → lw.Occupies j →
        ¬ ((liveness.live v).contains i = true ∧ (liveness.live w).contains i = true) := by
  unfold allocateSlots at h
  dsimp only at h
  split at h
  · cases h
  · rename_i a placed
    have start : Packed liveness n (fun _ => False) ⟨d.locals, #[], d.reservedSlots.toNat⟩ :=
      ⟨by intro slot taken found; simp at found, fun _ _ _ _ h => h.elim, fun _ _ _ h => h.elim,
        fun _ _ _ _ _ _ h => h.elim⟩
    have fixed := packed_foldl_claimFixed (List.range d.locals.size) start
      (fun _ _ h => h.elim) kept ranged
    have locals := foldl_claimFixed_locals liveness (List.range d.locals.size)
      ⟨d.locals, #[], d.reservedSlots.toNat⟩
    have packed := packed_placeAll fixed ?_ ?_ (locals.symm ▸ ranged) placed
    · have all : ∀ v l, a.locals[v]? = some l → v ∈ List.range d.locals.size := by
        intro v l found
        have size := (placeAll_reslotted placed).size
        rw [locals] at size
        exact List.mem_range.mpr (size ▸ (Array.getElem?_eq_some_iff.mp found).1)
      have same : d'.locals = a.locals := by
        split at h <;> cases h
        rfl
      rw [same]
      refine ⟨?_, ?_⟩
      · intro v l i found alive
        exact packed.served v l i (.inr (all v l found)) found alive
      · intro v w lv lw j i distinct foundV foundW
        exact packed.apart v w lv lw j i (.inr (all v lv foundV)) (.inr (all w lw foundW)) distinct
          foundV foundW
    · rw [locals]
      intro w lw stored fixed
      exact .inr ⟨List.mem_range.mpr (Array.getElem?_eq_some_iff.mp stored).1, lw, stored, fixed⟩
    · rw [locals]
      intro v member
      exact List.mem_range.mp member

end JvmAssembly.Draft
