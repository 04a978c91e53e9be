import Mathlib
import JvmAssembly.BitSet

/-!
Bit sets as sets of numbers. The operations keep every bit past the capacity clear, so membership
is a single bit and the operations on whole blocks act element by element.
-/
namespace JvmAssembly.BitSet

theorem toBitVec_bit (i : Nat) : (bit i).toBitVec = BitVec.twoPow 64 (i % 64) := by
  simp [bit, UInt64.toBitVec_shiftLeft, BitVec.twoPow]

theorem and_bit_ne_zero (b : UInt64) (i : Nat) :
    (b &&& bit i != 0) = b.toBitVec.getLsbD (i % 64) := by
  have inside : i % 64 < 64 := Nat.mod_lt i (by decide)
  have nonzero : BitVec.twoPow 64 (i % 64) ≠ 0#64 := by
    intro h
    have := congrArg (fun w : BitVec 64 => w.getLsbD (i % 64)) h
    simp [inside] at this
  rw [Bool.eq_iff_iff, bne_iff_ne, ne_eq, ← UInt64.toBitVec_inj, UInt64.toBitVec_and,
    toBitVec_bit, BitVec.and_twoPow]
  by_cases h : b.toBitVec.getLsbD (i % 64) <;> simp [h, nonzero]

theorem getBit_eq (s : BitSet) (i : Nat) :
    s.getBit i = (s.blocks.getD (i / 64) 0).toBitVec.getLsbD (i % 64) :=
  and_bit_ne_zero _ i

theorem getLsbD_or_bit (b : UInt64) {i j : Nat} (block : i / 64 = j / 64) :
    (b ||| bit i).toBitVec.getLsbD (j % 64) = (decide (j = i) || b.toBitVec.getLsbD (j % 64)) := by
  have inside : i % 64 < 64 := Nat.mod_lt i (by decide)
  have same : i % 64 = j % 64 ↔ j = i := by omega
  rw [UInt64.toBitVec_or, BitVec.getLsbD_or, toBitVec_bit, BitVec.getLsbD_twoPow, Bool.or_comm]
  simp only [inside, decide_true, Bool.true_and, same]

theorem getLsbD_and_not_bit (b : UInt64) {i j : Nat} (block : i / 64 = j / 64) :
    (b &&& ~~~bit i).toBitVec.getLsbD (j % 64) =
      (decide (j ≠ i) && b.toBitVec.getLsbD (j % 64)) := by
  have inside : i % 64 < 64 := Nat.mod_lt i (by decide)
  have inside' : j % 64 < 64 := Nat.mod_lt j (by decide)
  have same : i % 64 = j % 64 ↔ j = i := by omega
  rw [UInt64.toBitVec_and, BitVec.getLsbD_and, UInt64.toBitVec_not, BitVec.getLsbD_not,
    toBitVec_bit, BitVec.getLsbD_twoPow, Bool.and_comm]
  simp only [inside, inside', decide_true, Bool.true_and, same, decide_not]

/-- A change to the block of `i` shows in the bits of that block alone. -/
theorem getBit_modify (s : BitSet) {i : Nat} (stored : i / 64 < s.blocks.size)
    (f : UInt64 → UInt64) (j : Nat) :
    getBit { s with blocks := s.blocks.modify (i / 64) f } j =
      if i / 64 = j / 64 then (f (s.blocks.getD (j / 64) 0)).toBitVec.getLsbD (j % 64)
      else s.getBit j := by
  simp only [getBit_eq, Array.getD_eq_getD_getElem?, Array.getElem?_modify]
  by_cases block : i / 64 = j / 64
  · have stored' := block ▸ stored
    simp only [block, if_true, Array.getElem?_eq_getElem stored', Option.map_some,
      Option.getD_some]
  · simp only [block, if_false]

theorem stored_of_getBit {s : BitSet} {i : Nat} (h : s.getBit i = true) :
    i / 64 < s.blocks.size := by
  by_contra outside
  rw [getBit_eq, Array.getD_eq_getD_getElem?, Array.getElem?_eq_none (by omega)] at h
  simp at h

/-- The blocks cover the capacity and no bit past it is set. -/
structure Sound (s : BitSet) : Prop where
  size : s.blocks.size = (s.capacity + 63) / 64
  bound : ∀ i, s.getBit i = true → i < s.capacity

theorem contains_eq_getBit {s : BitSet} (sound : s.Sound) (i : Nat) :
    s.contains i = s.getBit i := by
  rw [Bool.eq_iff_iff]
  simp only [contains, Bool.and_eq_true, decide_eq_true_eq]
  exact ⟨fun h => h.2, fun h => ⟨sound.bound i h, h⟩⟩

theorem getBit_empty (n i : Nat) : (empty n).getBit i = false := by
  simp only [getBit_eq, empty]
  by_cases h : i / 64 < (n + 63) / 64 <;> simp [Array.getD, h]

theorem sound_empty (n : Nat) : (empty n).Sound where
  size := by simp [empty]
  bound i h := by simp [getBit_empty] at h

@[simp] theorem contains_empty (n i : Nat) : (empty n).contains i = false := by
  rw [contains_eq_getBit (sound_empty n), getBit_empty]

theorem getBit_insert {s : BitSet} (sound : s.Sound) {i : Nat} (inside : i < s.capacity) (j : Nat) :
    (s.insert i).1.getBit j = (decide (j = i) || s.getBit j) := by
  unfold insert
  split
  · rename_i present
    by_cases same : j = i
    · simp only [same, present, Bool.or_true]
    · simp only [same, decide_false, Bool.false_or]
  · have stored : i / 64 < s.blocks.size := by
      rw [sound.size]
      omega
    rw [getBit_modify s stored]
    split
    · rename_i block
      rw [getBit_eq]
      exact getLsbD_or_bit _ block
    · rename_i block
      have other : j ≠ i := by
        rintro rfl
        exact block rfl
      simp only [other, decide_false, Bool.false_or]

theorem capacity_insert (s : BitSet) (i : Nat) : (s.insert i).1.capacity = s.capacity := by
  unfold insert
  split <;> rfl

theorem sound_insert {s : BitSet} (sound : s.Sound) {i : Nat} (inside : i < s.capacity) :
    (s.insert i).1.Sound where
  size := by
    unfold insert
    split
    · exact sound.size
    · simpa only [Array.size_modify] using sound.size
  bound j h := by
    rw [getBit_insert sound inside, Bool.or_eq_true, decide_eq_true_eq] at h
    rw [capacity_insert]
    rcases h with rfl | h
    · exact inside
    · exact sound.bound j h

theorem contains_insert {s : BitSet} (sound : s.Sound) {i : Nat} (inside : i < s.capacity)
    (j : Nat) : (s.insert i).1.contains j = (decide (j = i) || s.contains j) := by
  rw [contains_eq_getBit (sound_insert sound inside), contains_eq_getBit sound,
    getBit_insert sound inside]

theorem insert_isNew {s : BitSet} (sound : s.Sound) (i : Nat) :
    (s.insert i).2 = !s.contains i := by
  rw [contains_eq_getBit sound]
  unfold insert
  split <;> simp_all

theorem insert_of_contains {s : BitSet} (sound : s.Sound) {i : Nat} (h : s.contains i = true) :
    s.insert i = (s, false) := by
  rw [contains_eq_getBit sound] at h
  simp only [insert, h, if_true]

theorem getBit_erase {s : BitSet} (sound : s.Sound) (i j : Nat) :
    (s.erase i).1.getBit j = (decide (j ≠ i) && s.getBit j) := by
  unfold erase
  rw [contains_eq_getBit sound]
  split
  · rename_i present
    rw [getBit_modify s (stored_of_getBit present)]
    split
    · rename_i block
      rw [getBit_eq]
      exact getLsbD_and_not_bit _ block
    · rename_i block
      have other : j ≠ i := by
        rintro rfl
        exact block rfl
      simp only [ne_eq, other, not_false_eq_true, decide_true, Bool.true_and]
  · rename_i absent
    by_cases same : j = i
    · simp only [same, eq_false_of_ne_true absent, Bool.and_false]
    · simp only [ne_eq, same, not_false_eq_true, decide_true, Bool.true_and]

theorem capacity_erase (s : BitSet) (i : Nat) : (s.erase i).1.capacity = s.capacity := by
  unfold erase
  split <;> rfl

theorem sound_erase {s : BitSet} (sound : s.Sound) (i : Nat) : (s.erase i).1.Sound where
  size := by
    unfold erase
    split
    · simpa only [Array.size_modify] using sound.size
    · exact sound.size
  bound j h := by
    rw [getBit_erase sound, Bool.and_eq_true] at h
    rw [capacity_erase]
    exact sound.bound j h.2

theorem contains_erase {s : BitSet} (sound : s.Sound) (i j : Nat) :
    (s.erase i).1.contains j = (decide (j ≠ i) && s.contains j) := by
  rw [contains_eq_getBit (sound_erase sound i), contains_eq_getBit sound, getBit_erase sound]

theorem erase_wasThere (s : BitSet) (i : Nat) : (s.erase i).2 = s.contains i := by
  unfold erase
  split <;> simp_all

theorem getBit_union {s t : BitSet} (same : s.blocks.size = t.blocks.size) (i : Nat) :
    (s.union t).1.getBit i = (s.getBit i || t.getBit i) := by
  simp only [getBit_eq, union, Array.getD_eq_getD_getElem?, Array.getElem?_mapIdx]
  by_cases stored : i / 64 < s.blocks.size
  · simp only [Array.getElem?_eq_getElem stored, Option.map_some, Option.getD_some,
      UInt64.toBitVec_or, BitVec.getLsbD_or]
  · have absent : t.blocks[i / 64]? = none := Array.getElem?_eq_none (by omega)
    have absent' : s.blocks[i / 64]? = none := Array.getElem?_eq_none (by omega)
    simp [absent, absent']

theorem blocks_size_eq {s t : BitSet} (hs : s.Sound) (ht : t.Sound)
    (same : s.capacity = t.capacity) :
    s.blocks.size = t.blocks.size := by
  rw [hs.size, ht.size, same]

theorem sound_union {s t : BitSet} (hs : s.Sound) (ht : t.Sound) (same : s.capacity = t.capacity) :
    (s.union t).1.Sound where
  size := by simpa only [union, Array.size_mapIdx] using hs.size
  bound i h := by
    rw [getBit_union (blocks_size_eq hs ht same), Bool.or_eq_true] at h
    change i < s.capacity
    rcases h with h | h
    · exact hs.bound i h
    · exact same ▸ ht.bound i h

theorem contains_union {s t : BitSet} (hs : s.Sound) (ht : t.Sound) (same : s.capacity = t.capacity)
    (i : Nat) : (s.union t).1.contains i = (s.contains i || t.contains i) := by
  rw [contains_eq_getBit (sound_union hs ht same), contains_eq_getBit hs, contains_eq_getBit ht,
    getBit_union (blocks_size_eq hs ht same)]

/-- Sets that share an element have a block in common where both have its bit. -/
theorem intersects_of_common {s t : BitSet} (hs : s.Sound) (ht : t.Sound)
    (same : s.capacity = t.capacity) {i : Nat} (his : s.contains i = true)
    (hit : t.contains i = true) : s.intersects t = true := by
  rw [contains_eq_getBit hs] at his
  rw [contains_eq_getBit ht] at hit
  have inside := stored_of_getBit his
  have inside' : i / 64 < t.blocks.size := blocks_size_eq hs ht same ▸ inside
  rw [getBit_eq] at his hit
  rw [intersects, Array.any_eq_true]
  refine ⟨i / 64, by simp [inside, inside'], ?_⟩
  simp only [Array.getElem_zip, bne_iff_ne, ne_eq]
  intro zero
  have bits := congrArg (fun w : UInt64 => w.toBitVec.getLsbD (i % 64)) zero
  simp [Array.getD, inside, inside'] at his hit
  simp [his, hit] at bits

theorem exists_bit {b : UInt64} (h : b ≠ 0) : ∃ k < 64, b.toBitVec.getLsbD k = true := by
  by_contra none
  refine h (UInt64.toBitVec_inj.mp (BitVec.eq_of_getLsbD_eq fun k inside => ?_))
  have clear : b.toBitVec.getLsbD k = false := by
    rw [← Bool.not_eq_true]
    exact fun set => none ⟨k, inside, set⟩
  rw [clear]
  simp

/-- A bit of a block is the bit of a number. -/
theorem getBit_of_block {s : BitSet} {j k : Nat} (inside : k < 64) :
    s.getBit (64 * j + k) = (s.blocks.getD j 0).toBitVec.getLsbD k := by
  have block : (64 * j + k) / 64 = j := by omega
  have offset : (64 * j + k) % 64 = k := by omega
  rw [getBit_eq, block, offset]

theorem common_of_intersects {s t : BitSet} (hs : s.Sound) (ht : t.Sound)
    (h : s.intersects t = true) : ∃ i, s.contains i = true ∧ t.contains i = true := by
  rw [intersects, Array.any_eq_true] at h
  obtain ⟨j, inside, shared⟩ := h
  rw [Array.size_zip] at inside
  have inside' : j < s.blocks.size ∧ j < t.blocks.size := Nat.lt_min.mp inside
  have first : s.blocks.getD j 0 = s.blocks[j] := by simp [Array.getD, inside'.1]
  have second : t.blocks.getD j 0 = t.blocks[j] := by simp [Array.getD, inside'.2]
  simp only [Array.getElem_zip, bne_iff_ne, ne_eq, ← first, ← second] at shared
  obtain ⟨k, bound, both⟩ := exists_bit shared
  rw [UInt64.toBitVec_and, BitVec.getLsbD_and, Bool.and_eq_true, ← getBit_of_block bound,
    ← getBit_of_block bound] at both
  refine ⟨64 * j + k, ?_, ?_⟩
  · rw [contains_eq_getBit hs, both.1]
  · rw [contains_eq_getBit ht, both.2]

theorem intersects_iff {s t : BitSet} (hs : s.Sound) (ht : t.Sound)
    (same : s.capacity = t.capacity) :
    s.intersects t = true ↔ ∃ i, s.contains i = true ∧ t.contains i = true :=
  ⟨common_of_intersects hs ht, fun ⟨_, his, hit⟩ => intersects_of_common hs ht same his hit⟩

theorem isEmpty_eq_not_intersects (s : BitSet) : s.isEmpty = !s.intersects s := by
  rw [Bool.eq_iff_iff, Bool.not_eq_true', Bool.eq_false_iff, ne_eq, isEmpty, intersects,
    Array.all_eq_true, Array.any_eq_true]
  simp [Array.getElem_zip]

theorem contains_of_intersects_false {s t : BitSet} (hs : s.Sound) (ht : t.Sound)
    (same : s.capacity = t.capacity) (h : s.intersects t = false) (i : Nat) :
    ¬ (s.contains i = true ∧ t.contains i = true) := by
  rintro ⟨his, hit⟩
  rw [intersects_of_common hs ht same his hit] at h
  cases h

theorem isEmpty_eq_false {s : BitSet} (hs : s.Sound) {i : Nat} (h : s.contains i = true) :
    s.isEmpty = false := by
  rw [isEmpty_eq_not_intersects, intersects_of_common hs hs rfl h h]
  rfl

/-- Sets are equal if they have the same elements, since bits past the capacity are clear. -/
theorem eq_of_contains {s t : BitSet} (hs : s.Sound) (ht : t.Sound)
    (same : s.capacity = t.capacity) (equal : ∀ i, s.contains i = t.contains i) : s = t := by
  have blocks : s.blocks = t.blocks := by
    refine Array.ext (blocks_size_eq hs ht same) fun j first second => ?_
    refine UInt64.toBitVec_inj.mp (BitVec.eq_of_getLsbD_eq fun k inside => ?_)
    have bits := equal (64 * j + k)
    rw [contains_eq_getBit hs, contains_eq_getBit ht, getBit_of_block inside,
      getBit_of_block inside] at bits
    simpa only [Array.getD_eq_getD_getElem?, Array.getElem?_eq_getElem first,
      Array.getElem?_eq_getElem second, Option.getD_some] using bits
  cases s
  cases t
  cases same
  cases blocks
  rfl

theorem mem_toList {s : BitSet} (sound : s.Sound) (i : Nat) :
    i ∈ s.toList ↔ s.contains i = true := by
  rw [toList, List.mem_filter, List.mem_range, contains_eq_getBit sound]
  refine ⟨fun h => h.2, fun h => ⟨?_, h⟩⟩
  have stored := stored_of_getBit h
  omega

theorem pairwise_toList (s : BitSet) : s.toList.Pairwise (· < ·) :=
  List.pairwise_lt_range.filter _

end JvmAssembly.BitSet
