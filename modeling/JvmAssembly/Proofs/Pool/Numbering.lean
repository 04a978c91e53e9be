import Mathlib
import JvmAssembly.Pool.Numbering
import JvmAssembly.Proofs.Outcome

/-!
What handing out indices leads to. The table of a numbered pool lists the entries in their order,
each with the indices that it takes; index and entry determine each other, and the numbering
succeeds whenever the table is short enough.
-/
namespace JvmAssembly

variable {α β ρ : Type}

/-- Items at the indices that they take: behind a wide item one index stays unused. -/
def spread (width : α → Nat) (items : List α) : List (Option α) :=
  items.flatMap fun a => some a :: if width a = 2 then [none] else []

theorem spread_append (width : α → Nat) (front back : List α) :
    spread width (front ++ back) = spread width front ++ spread width back :=
  List.flatMap_append

theorem spread_singleton (width : α → Nat) (a : α) :
    spread width [a] = some a :: if width a = 2 then [none] else [] :=
  List.flatMap_singleton _ _

theorem spread_map (width : β → Nat) (f : α → β) (items : List α) :
    spread width (items.map f) = (spread (fun a => width (f a)) items).map (Option.map f) := by
  induction items with
  | nil => rfl
  | cons a items ih =>
      simp only [spread, List.map_cons, List.flatMap_cons, List.map_append] at ih ⊢
      rw [ih]
      split <;> rfl

theorem spread_congr {width width' : α → Nat} {items : List α}
    (same : ∀ a ∈ items, width a = width' a) : spread width items = spread width' items := by
  refine List.flatMap_congr fun a member => ?_
  rw [same a member]

theorem length_spread {width : α → Nat} {items : List α}
    (narrow : ∀ a ∈ items, width a = 1 ∨ width a = 2) :
    (spread width items).length = (items.map width).sum := by
  induction items with
  | nil => rfl
  | cons a items ih =>
      rw [List.forall_mem_cons] at narrow
      rw [← List.singleton_append, spread_append, List.length_append, ih narrow.2,
        spread_singleton, List.map_append, List.sum_append]
      rcases narrow.1 with one | two
      · simp [one]
      · simp [two]

theorem mem_spread {width : α → Nat} {items : List α} {a : α} :
    some a ∈ spread width items ↔ a ∈ items := by
  rw [spread, List.mem_flatMap]
  constructor
  · rintro ⟨b, member, within⟩
    rcases List.mem_cons.mp within with same | unused
    · cases same
      exact member
    · split at unused
      · cases List.mem_singleton.mp unused
      · cases unused
  · exact fun member => ⟨a, member, List.mem_cons_self⟩

/-- Width of the entry at a position. -/
def widthAt (entries : Array (ConstantOf ρ)) (i : Nat) : Nat := entries[i]?.elim 1 (·.width)

theorem ConstantOf.width_cases (c : ConstantOf ρ) : c.width = 1 ∨ c.width = 2 := by
  cases c <;> simp [width]

namespace Pool

theorem ordered_perm (p : Pool) (order : IndexOrder) :
    (p.ordered order).Perm (List.range p.size) := by
  cases order with
  | preserve => exact .refl _
  | priority =>
      simp only [ordered, List.partition_eq_filter_filter]
      exact List.filter_append_perm _ _

/-- These entries have indices, in this order. -/
structure Numbers (p : Pool) (refs : List ConstantRef) (n : Numbering) : Prop where
  order : n.order.toList = refs
  table : n.entryAt.toList = none :: spread (widthAt p.entries) refs
  sized : n.indices.size = p.size
  index : ∀ ref ∈ refs, ∃ index : UInt16,
    n.indices[ref]? = some index ∧ n.entryAt[index.toNat]? = some (some ref)
  entry : ∀ i ref, n.entryAt[i]? = some (some ref) →
    ref ∈ refs ∧ n.indices[ref]? = some (UInt16.ofNat i)
  short : n.entryAt.size ≤ 65535

theorem numbers_start (p : Pool) : p.Numbers [] ⟨#[], Array.replicate p.size 0, #[none]⟩ := by
  refine ⟨rfl, rfl, Array.size_replicate, nofun, ?_, Nat.le_of_ble_eq_true rfl⟩
  intro i ref found
  rw [List.getElem?_toArray, List.getElem?_singleton] at found
  split at found <;> cases found

variable {p : Pool} {refs : List ConstantRef} {n n' : Numbering} {ref : ConstantRef}

theorem number_eq_ok : p.number n ref = .ok n' ↔
    ∃ c, p.entries[ref]? = some c ∧ n.entryAt.size + c.width ≤ 65535 ∧
      n' = ⟨n.order.push ref, n.indices.setIfInBounds ref (UInt16.ofNat n.entryAt.size),
        if c.width = 2 then (n.entryAt.push (some ref)).push none
        else n.entryAt.push (some ref)⟩ := by
  unfold number
  cases p.entries[ref]? with
  | none => simp
  | some c =>
      by_cases room : n.entryAt.size + c.width > 65535
      · simp only [room, if_true, Option.some.injEq, exists_eq_left']
        exact ⟨nofun, fun ⟨fits, _⟩ => absurd room (Nat.not_lt.mpr fits)⟩
      · simp only [room, if_false, Option.some.injEq, exists_eq_left', Except.ok.injEq,
          Nat.not_lt.mp room, true_and]
        exact eq_comm

theorem widthAt_eq {entries : Array (ConstantOf ρ)} {i : Nat} {c : ConstantOf ρ}
    (found : entries[i]? = some c) : widthAt entries i = c.width := by
  rw [widthAt, found]
  rfl

theorem widthAt_eq_getD (entries : Array (ConstantOf ρ)) (i : Nat) :
    widthAt entries i = (entries.toList.map (·.width))[i]?.getD 1 := by
  rw [widthAt, List.getElem?_map, Array.getElem?_toList]
  cases entries[i]? <;> rfl

theorem map_widthAt_range (entries : Array (ConstantOf ρ)) :
    (List.range entries.size).map (widthAt entries) = entries.toList.map (·.width) := by
  refine List.ext_getElem (by simp) fun i _ inside => ?_
  rw [List.length_map, Array.length_toList] at inside
  rw [List.getElem_map, List.getElem_map, List.getElem_range,
    widthAt_eq (Array.getElem?_eq_getElem inside), Array.getElem_toList]

theorem table_number (numbered : p.number n ref = .ok n') :
    n'.entryAt.toList = n.entryAt.toList ++ spread (widthAt p.entries) [ref] := by
  obtain ⟨c, found, _, rfl⟩ := number_eq_ok.mp numbered
  rw [spread_singleton, widthAt_eq found]
  split <;> simp

theorem size_number (numbered : p.number n ref = .ok n') :
    n'.entryAt.size = n.entryAt.size + (spread (widthAt p.entries) [ref]).length := by
  rw [← Array.length_toList, table_number numbered, List.length_append, Array.length_toList]

theorem length_spread_singleton {c : Constant} (found : p.entries[ref]? = some c) :
    (spread (widthAt p.entries) [ref]).length = c.width := by
  rw [spread_singleton, widthAt_eq found]
  rcases c.width_cases with one | two
  · simp [one]
  · simp [two]

theorem Numbers.step (numbers : p.Numbers refs n) (fresh : ref ∉ refs)
    (numbered : p.number n ref = .ok n') : p.Numbers (refs ++ [ref]) n' := by
  have grown := table_number numbered
  have sized := size_number numbered
  obtain ⟨c, found, room, made⟩ := number_eq_ok.mp numbered
  have inside : ref < n.indices.size := numbers.sized ▸ (Array.getElem?_eq_some_iff.mp found).1
  have here : n'.indices[ref]? = some (UInt16.ofNat n.entryAt.size) := by
    rw [made]
    exact Array.getElem?_setIfInBounds_self_of_lt inside
  have others : ∀ {r}, r ∈ refs → n'.indices[r]? = n.indices[r]? := by
    intro r member
    have other : ref ≠ r := fun same => fresh (same ▸ member)
    rw [made]
    exact Array.getElem?_setIfInBounds_ne other
  have table : ∀ i : Nat, n'.entryAt[i]? =
      (n.entryAt.toList ++ spread (widthAt p.entries) [ref])[i]? := by
    intro i
    rw [← Array.getElem?_toList, grown]
  refine ⟨?_, ?_, ?_, ?_, ?_, ?_⟩
  · rw [made, Array.toList_push, numbers.order]
  · rw [grown, numbers.table, spread_append, List.cons_append]
  · rw [made, Array.size_setIfInBounds, numbers.sized]
  · intro r member
    simp only [table]
    rcases List.mem_append.mp member with old | new
    · obtain ⟨index, known, back⟩ := numbers.index r old
      rw [← Array.getElem?_toList] at back
      exact ⟨index, (others old).trans known,
        (List.getElem?_append_left (List.getElem?_eq_some_iff.mp back).1).trans back⟩
    · cases List.mem_singleton.mp new
      have small : n.entryAt.size < 2 ^ 16 := Nat.lt_succ_of_le numbers.short
      refine ⟨_, here, ?_⟩
      rw [UInt16.toNat_ofNat', Nat.mod_eq_of_lt small,
        List.getElem?_append_right (Nat.le_of_eq Array.length_toList), Array.length_toList,
        Nat.sub_self, spread_singleton]
      rfl
  · intro i r there
    rw [table, List.getElem?_append] at there
    split at there
    · rw [Array.getElem?_toList] at there
      obtain ⟨member, known⟩ := numbers.entry i r there
      exact ⟨List.mem_append_left _ member, (others member).trans known⟩
    · rename_i beyond
      rw [Array.length_toList] at there beyond
      rw [spread_singleton] at there
      rcases Nat.eq_zero_or_pos (i - n.entryAt.size) with first | later
      · rw [first] at there
        cases there
        have last : i = n.entryAt.size := by omega
        exact ⟨List.mem_append_right _ (List.mem_singleton_self _), last ▸ here⟩
      · -- Behind a wide entry there is nothing to find.
        obtain ⟨k, more⟩ := Nat.exists_eq_add_of_lt later
        rw [more, List.getElem?_cons_succ] at there
        split at there
        · rw [List.getElem?_singleton] at there
          split at there <;> cases there
        · cases there
  · rw [sized, length_spread_singleton found]
    exact room

theorem Numbers.run {rest : List ConstantRef} (numbers : p.Numbers refs n)
    (apart : (refs ++ rest).Nodup) (numbered : p.numberAll n rest = .ok n') :
    p.Numbers (refs ++ rest) n' := by
  induction rest generalizing refs n with
  | nil =>
      cases numbered
      rwa [List.append_nil]
  | cons ref rest ih =>
      cases one : p.number n ref with
      | error fault => rw [numberAll, one] at numbered; cases numbered
      | ok n₁ =>
          rw [numberAll, one] at numbered
          have fresh : ref ∉ refs := fun member =>
            (List.nodup_append.mp apart).2.2 ref member ref List.mem_cons_self rfl
          rw [List.append_cons] at apart ⊢
          exact ih (numbers.step fresh one) apart numbered

/-- All entries get an index when the table is short. -/
theorem exists_numberAll {rest : List ConstantRef} (inside : ∀ ref ∈ rest, ref < p.size)
    (short : n.entryAt.size + (spread (widthAt p.entries) rest).length ≤ 65535) :
    ∃ n', p.numberAll n rest = .ok n' := by
  induction rest generalizing n with
  | nil => exact ⟨n, rfl⟩
  | cons ref rest ih =>
      rw [List.forall_mem_cons] at inside
      obtain ⟨c, found⟩ : ∃ c, p.entries[ref]? = some c :=
        ⟨_, Array.getElem?_eq_getElem inside.1⟩
      have both : (spread (widthAt p.entries) (ref :: rest)).length =
          c.width + (spread (widthAt p.entries) rest).length := by
        rw [← List.singleton_append, spread_append, List.length_append,
          length_spread_singleton found]
      have room : n.entryAt.size + c.width ≤ 65535 := by omega
      have one := number_eq_ok.mpr ⟨c, found, room, rfl⟩
      have sized := size_number one
      rw [length_spread_singleton found] at sized
      rw [numberAll, one]
      exact ih inside.2 (by omega)

/-- All entries of a pool have indices. -/
def Numbered (p : Pool) : Prop :=
  ∃ n refs, p.numbering = some n ∧ p.Numbers refs n ∧ refs.Perm (List.range p.size)

theorem numbers_of_assign {q : Pool} {order : IndexOrder} (assigned : p.assign order = .ok q) :
    ∃ n, q = { p with numbering := some n } ∧ p.Numbers (p.ordered order) n := by
  unfold assign at assigned
  cases ran : p.numberAll ⟨#[], Array.replicate p.size 0, #[none]⟩ (p.ordered order) with
  | error fault => rw [ran] at assigned; cases assigned
  | ok n =>
      rw [ran] at assigned
      cases assigned
      have apart : (p.ordered order).Nodup := (p.ordered_perm order).nodup_iff.mpr List.nodup_range
      exact ⟨n, rfl, (numbers_start p).run apart ran⟩

theorem numbered_of_assign {q : Pool} {order : IndexOrder} (assigned : p.assign order = .ok q) :
    q.Numbered := by
  obtain ⟨n, rfl, numbers⟩ := numbers_of_assign assigned
  exact ⟨n, _, rfl, ⟨numbers.order, numbers.table, numbers.sized, numbers.index, numbers.entry,
    numbers.short⟩, p.ordered_perm order⟩

theorem exists_assign (order : IndexOrder)
    (short : (spread (widthAt p.entries) (p.ordered order)).length < 65535) :
    ∃ q, p.assign order = .ok q := by
  have inside : ∀ ref ∈ p.ordered order, ref < p.size := fun ref member =>
    List.mem_range.mp ((p.ordered_perm order).mem_iff.mp member)
  obtain ⟨n, ran⟩ : ∃ n, p.numberAll ⟨#[], Array.replicate p.size 0, #[none]⟩ (p.ordered order) =
      .ok n := exists_numberAll inside (by
    change 1 + (spread (widthAt p.entries) (p.ordered order)).length ≤ 65535
    omega)
  exact ⟨{ p with numbering := some n }, by rw [assign, ran]⟩

theorem lookup_eq_ok {table : IndexTable} {index : UInt16} :
    table.lookup index = .ok ref ↔ table[index.toNat]? = some (some ref) := by
  unfold IndexTable.lookup
  split
  · rename_i found
    rw [found]
    simp
  · rename_i other
    exact ⟨nofun, fun found => absurd found (other ref)⟩

theorem entryAt_eq_ok {index : UInt16} (numbering : p.numbering = some n) :
    p.entryAt index = .ok ref ↔ n.entryAt[index.toNat]? = some (some ref) := by
  rw [entryAt, numbering]
  exact lookup_eq_ok

theorem indexOf_eq_ok {index : UInt16} (numbering : p.numbering = some n) :
    p.indexOf ref = .ok index ↔ n.indices[ref]? = some index := by
  simp only [indexOf, numbering]
  cases known : n.indices[ref]? with
  | none => exact ⟨nofun, nofun⟩
  | some other => simp only [Except.ok.injEq, Option.some.injEq]

/-- Index and entry determine each other. -/
theorem Numbered.indexOf_iff (numbered : p.Numbered) {index : UInt16} :
    p.indexOf ref = .ok index ↔ p.entryAt index = .ok ref := by
  obtain ⟨n, refs, numbering, numbers, perm⟩ := numbered
  rw [entryAt_eq_ok numbering, indexOf_eq_ok numbering]
  constructor
  · intro known
    have inside : ref < p.size := numbers.sized ▸ (Array.getElem?_eq_some_iff.mp known).1
    have member : ref ∈ refs := perm.mem_iff.mpr (List.mem_range.mpr inside)
    obtain ⟨index', same, back⟩ := numbers.index ref member
    cases known.symm.trans same
    exact back
  · intro found
    rw [(numbers.entry _ _ found).2, UInt16.ofNat_toNat]

theorem Numbered.exists_index (numbered : p.Numbered) (inside : ref < p.size) :
    ∃ index, p.indexOf ref = .ok index := by
  obtain ⟨n, refs, numbering, numbers, perm⟩ := numbered
  have member : ref ∈ refs := perm.mem_iff.mpr (List.mem_range.mpr inside)
  obtain ⟨index, known, _⟩ := numbers.index ref member
  exact ⟨index, (indexOf_eq_ok numbering).mpr known⟩

end Pool

end JvmAssembly
