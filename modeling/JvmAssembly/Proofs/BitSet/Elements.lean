import Mathlib
import JvmAssembly.Proofs.Runs

/-!
Bit sets as finite sets. Every operation does to the elements of a set what the like operation does
to a finite set, and says whether they changed; sets of one capacity are equal if they have the
same elements. So a family of sets that are changed and joined in any order answers every question
as a family of finite sets does.
-/
namespace JvmAssembly.BitSet

/-- The finite set that a bit set stands for. -/
def elements (s : BitSet) : Finset Nat :=
  {i ∈ Finset.range s.capacity | s.contains i = true}

/-- Sound sets of numbers below `n`. -/
structure Within (s : BitSet) (n : Nat) : Prop extends s.Sound where
  capacity : s.capacity = n

section Elements

variable {s t : BitSet} {n i : Nat}

@[simp] theorem mem_elements : i ∈ s.elements ↔ s.contains i = true := by
  rw [elements, Finset.mem_filter, Finset.mem_range, and_iff_right_iff_imp]
  intro member
  rw [contains, Bool.and_eq_true, decide_eq_true_iff] at member
  exact member.1

theorem elements_empty (n : Nat) : (empty n).elements = ∅ := by
  ext i
  simp

theorem elements_insert (sound : s.Sound) (inside : i < s.capacity) :
    (s.insert i).1.elements = Insert.insert i s.elements := by
  ext j
  simp [contains_insert sound inside]

theorem elements_erase (sound : s.Sound) (i : Nat) :
    (s.erase i).1.elements = s.elements.erase i := by
  ext j
  simp [contains_erase sound]

theorem elements_union (hs : s.Sound) (ht : t.Sound) (same : s.capacity = t.capacity) :
    (s.union t).1.elements = s.elements ∪ t.elements := by
  ext i
  simp [contains_union hs ht same]

theorem Within.empty (n : Nat) : (empty n).Within n := ⟨sound_empty n, rfl⟩

theorem Within.insert (h : s.Within n) (inside : i < s.capacity) : (s.insert i).1.Within n :=
  ⟨sound_insert h.toSound inside, (capacity_insert s i).trans h.capacity⟩

theorem Within.erase (h : s.Within n) (i : Nat) : (s.erase i).1.Within n :=
  ⟨sound_erase h.toSound i, (capacity_erase s i).trans h.capacity⟩

theorem Within.capacity_eq (hs : s.Within n) (ht : t.Within n) : s.capacity = t.capacity :=
  hs.capacity.trans ht.capacity.symm

theorem Within.union (hs : s.Within n) (ht : t.Within n) : (s.union t).1.Within n :=
  ⟨sound_union hs.toSound ht.toSound (hs.capacity_eq ht), hs.capacity⟩

theorem Within.elements_inj (hs : s.Within n) (ht : t.Within n) :
    s.elements = t.elements ↔ s = t := by
  refine ⟨fun same => ?_, congrArg elements⟩
  refine eq_of_contains hs.toSound ht.toSound (hs.capacity_eq ht) fun i => ?_
  rw [Bool.eq_iff_iff, ← mem_elements, ← mem_elements, same]

/-! Flags. -/

theorem insert_changed (sound : s.Sound) (inside : i < s.capacity) :
    (s.insert i).2 = decide ((s.insert i).1.elements ≠ s.elements) := by
  rw [Bool.eq_iff_iff, decide_eq_true_iff, insert_isNew sound, elements_insert sound inside, ne_eq,
    Finset.insert_eq_self, mem_elements, Bool.not_eq_true', Bool.not_eq_true]

theorem erase_changed (sound : s.Sound) (i : Nat) :
    (s.erase i).2 = decide ((s.erase i).1.elements ≠ s.elements) := by
  rw [Bool.eq_iff_iff, decide_eq_true_iff, erase_wasThere, elements_erase sound, ne_eq,
    Finset.erase_eq_self, mem_elements, not_not]

theorem union_changed (hs : s.Within n) (ht : t.Within n) :
    (s.union t).2 = decide ((s.union t).1.elements ≠ s.elements) := by
  -- The flag compares blocks, which are all that a union changes.
  have blocks : (s.union t).1 = s ↔ (s.union t).1.blocks = s.blocks :=
    ⟨congrArg blocks, fun same => congrArg (BitSet.mk s.capacity) same⟩
  rw [Bool.eq_iff_iff, decide_eq_true_iff, ne_eq, (hs.union ht).elements_inj hs, blocks]
  exact bne_iff_ne

/-! Questions. -/

theorem isEmpty_iff (sound : s.Sound) : s.isEmpty = true ↔ s.elements = ∅ := by
  rw [isEmpty_eq_not_intersects, Bool.not_eq_true', ← Bool.not_eq_true,
    intersects_iff sound sound rfl, Finset.eq_empty_iff_forall_notMem]
  simp

theorem intersects_iff_not_disjoint (hs : s.Within n) (ht : t.Within n) :
    s.intersects t = true ↔ ¬ Disjoint s.elements t.elements := by
  rw [intersects_iff hs.toSound ht.toSound (hs.capacity_eq ht), Finset.not_disjoint_iff]
  simp only [mem_elements]

theorem toList_eq_sort (sound : s.Sound) : s.toList = s.elements.sort := by
  have same : s.toList.toFinset = s.elements := by
    ext i
    rw [List.mem_toFinset, mem_toList sound, mem_elements]
  have increasing := s.pairwise_toList
  rw [← same, (List.toFinset_sort _ increasing.nodup).mpr (increasing.imp Nat.le_of_lt)]

theorem runs_iff_eq_ranges (sound : s.Sound) (runs : List (Nat × Nat)) :
    Runs (· ∈ s.elements) runs ↔ runs = s.ranges := by
  have made : Runs (· ∈ s.elements) s.ranges := (runs_ranges sound).congr fun _ => mem_elements
  refine ⟨fun h => h.unique made, ?_⟩
  rintro rfl
  exact made

end Elements

/-! Families of sets. -/

/-- A change to one of the sets of capacity `n`, which are known by number. -/
inductive Change (n : Nat) where
  | insert (set : Nat) (elem : Fin n)
  | erase (set elem : Nat)
  | union (set other : Nat)

namespace Change

variable {n : Nat}

/-- The set that is changed. -/
def target : Change n → Nat
  | .insert set _ => set
  | .erase set _ => set
  | .union set _ => set

/-- The set after the change, and the flag; an element that is out of range is refused. -/
def make (sets : Nat → BitSet) : Change n → Option (BitSet × Bool)
  | .insert set elem => (sets set).insert? elem
  | .erase set elem => some ((sets set).erase elem)
  | .union set other => some ((sets set).union (sets other))

/-- What the change makes of finite sets. -/
def onFinsets (members : Nat → Finset Nat) : Change n → Finset Nat
  | .insert set elem => Insert.insert elem.val (members set)
  | .erase set elem => (members set).erase elem
  | .union set other => members set ∪ members other

end Change

/-- Makes changes one after the other; their flags come with the sets. -/
def changeAll {n : Nat} (sets : Nat → BitSet) :
    List (Change n) → Option ((Nat → BitSet) × List Bool)
  | [] => some (sets, [])
  | change :: changes => do
    let made ← change.make sets
    let rest ← changeAll (Function.update sets change.target made.1) changes
    return (rest.1, made.2 :: rest.2)

/-- Makes the changes to finite sets; the flags say which of them changed something. -/
def changeFinsets {n : Nat} (members : Nat → Finset Nat) :
    List (Change n) → (Nat → Finset Nat) × List Bool
  | [] => (members, [])
  | change :: changes =>
    let made := change.onFinsets members
    let rest := changeFinsets (Function.update members change.target made) changes
    (rest.1, decide (made ≠ members change.target) :: rest.2)

/-- Bit sets that cannot be told from finite sets of numbers below `n`. -/
structure Agree (n : Nat) (sets : Nat → BitSet) (members : Nat → Finset Nat) : Prop where
  capacity : ∀ k, (sets k).capacity = n
  below : ∀ k, ∀ i ∈ members k, i < n
  contains : ∀ k i, (sets k).contains i = true ↔ i ∈ members k
  isEmpty : ∀ k, (sets k).isEmpty = true ↔ members k = ∅
  intersects : ∀ k l, (sets k).intersects (sets l) = true ↔ ¬ Disjoint (members k) (members l)
  equal : ∀ k l, sets k = sets l ↔ members k = members l
  toList : ∀ k, (sets k).toList = (members k).sort
  increasing : ∀ k, (sets k).toList.Pairwise (· < ·)
  ranges : ∀ k runs, Runs (· ∈ members k) runs ↔ runs = (sets k).ranges

section Families

variable {n : Nat} {sets : Nat → BitSet}

theorem agree_elements (fits : ∀ k, (sets k).Within n) :
    Agree n sets fun k => (sets k).elements where
  capacity k := (fits k).capacity
  below k i member := by
    rw [elements, Finset.mem_filter, Finset.mem_range, (fits k).capacity] at member
    exact member.1
  contains _ _ := mem_elements.symm
  isEmpty k := isEmpty_iff (fits k).toSound
  intersects k l := intersects_iff_not_disjoint (fits k) (fits l)
  equal k l := ((fits k).elements_inj (fits l)).symm
  toList k := toList_eq_sort (fits k).toSound
  increasing k := (sets k).pairwise_toList
  ranges k := runs_iff_eq_ranges (fits k).toSound

/-- One change does to the elements what it does to finite sets, and says whether they changed. -/
theorem Change.elements_make (fits : ∀ k, (sets k).Within n) (change : Change n) :
    ∃ s, change.make sets = some (s, decide (s.elements ≠ (sets change.target).elements)) ∧
      s.Within n ∧ s.elements = change.onFinsets fun k => (sets k).elements := by
  cases change with
  | insert set elem =>
      have old := fits set
      have inside : elem.val < (sets set).capacity := old.capacity.symm ▸ elem.isLt
      refine ⟨_, ?_, old.insert inside, elements_insert old.toSound inside⟩
      rw [Change.make, insert?, if_pos inside, Change.target,
        ← insert_changed old.toSound inside]
  | erase set elem =>
      have old := fits set
      refine ⟨_, ?_, old.erase elem, elements_erase old.toSound elem⟩
      rw [Change.make, Change.target, ← erase_changed old.toSound]
  | union set other =>
      have old := fits set
      have read := fits other
      refine ⟨_, ?_, old.union read,
        elements_union old.toSound read.toSound (old.capacity_eq read)⟩
      rw [Change.make, Change.target, ← union_changed old read]

theorem elements_changeAll (fits : ∀ k, (sets k).Within n) (changes : List (Change n)) :
    ∃ sets', changeAll sets changes =
        some (sets', (changeFinsets (fun k => (sets k).elements) changes).2) ∧
      (∀ k, (sets' k).Within n) ∧
      (fun k => (sets' k).elements) = (changeFinsets (fun k => (sets k).elements) changes).1 := by
  induction changes generalizing sets with
  | nil => exact ⟨sets, rfl, fits, rfl⟩
  | cons change changes ih =>
      obtain ⟨s, made, new, same⟩ := change.elements_make fits
      have fits' : ∀ k, (Function.update sets change.target s k).Within n :=
        Function.forall_update_iff sets (fun _ s => s.Within n) |>.mpr ⟨new, fun k _ => fits k⟩
      have members : (fun k => (Function.update sets change.target s k).elements) =
          Function.update (fun k => (sets k).elements) change.target s.elements :=
        funext (Function.apply_update (fun _ => elements) sets change.target s)
      obtain ⟨sets', rest, later⟩ := ih fits'
      rw [members, same] at rest later
      refine ⟨sets', ?_, later⟩
      simp only [changeAll, made, rest, same, Option.bind_eq_bind, Option.bind_some, changeFinsets]
      rfl

end Families

/-- Any changes to empty sets of one capacity, with all inserted elements in range, succeed: every
flag says whether its change had an effect, and the sets that come out agree with finite sets that
were changed in the same way. -/
theorem changeAll_refines (n : Nat) (changes : List (Change n)) :
    ∃ sets, changeAll (fun _ => empty n) changes =
        some (sets, (changeFinsets (fun _ => ∅) changes).2) ∧
      Agree n sets (changeFinsets (fun _ => ∅) changes).1 := by
  have start : (fun _ : Nat => (empty n).elements) = fun _ => ∅ := funext fun _ => elements_empty n
  obtain ⟨sets, ran, fits, members⟩ := elements_changeAll (fun _ => Within.empty n) changes
  rw [start] at ran members
  exact ⟨sets, ran, members ▸ agree_elements fits⟩

-- A run across two blocks, and changes that have no effect.
example : (changeAll (fun _ => empty 130) ([.insert 0 63, .insert 0 64, .insert 1 129, .union 0 1,
      .union 0 1, .erase 1 129, .erase 1 500] : List (Change 130))).map
        (fun made => ((made.1 0).ranges, (made.1 1).isEmpty, made.2)) =
    some ([(63, 65), (129, 130)], true, [true, true, true, true, false, true, false]) := by
  decide +kernel

end JvmAssembly.BitSet
