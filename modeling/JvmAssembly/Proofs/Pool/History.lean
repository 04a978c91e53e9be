import Mathlib
import JvmAssembly.Proofs.Pool.Recovery
import JvmAssembly.Proofs.Pool.RoundTrip

/-!
Pools over whole histories. A pool is new or was read from a class file, and from then on constants
are interned and indices assigned in any order, whether or not these succeed. A constant is found at
its first entry, entries stay for good, and while a pool has indices, those of its entries tile the
range below the count without a gap.
-/
namespace JvmAssembly

section Spread

variable {α : Type} {width : α → Nat} {items : List α} {a b : α} {i j k : Nat}

/-- The index behind a wide item is unused. -/
theorem spread_succ_of_wide (wide : width a = 2) (here : (spread width items)[j]? = some (some a)) :
    (spread width items)[j + 1]? = some none := by
  induction items generalizing j with
  | nil => cases here
  | cons first items ih =>
      rw [← List.singleton_append, spread_append, spread_singleton] at here ⊢
      cases j with
      | zero =>
          cases here
          rw [if_pos wide]
          rfl
      | succ j =>
          rw [List.cons_append, List.getElem?_cons_succ] at here ⊢
          split at here
          · rename_i firstWide
            rw [if_pos firstWide]
            -- The unused index of a wide first item is not where the item is.
            cases j with
            | zero => cases here
            | succ j =>
                rw [List.cons_append, List.getElem?_cons_succ] at here ⊢
                exact ih here
          · rename_i firstNarrow
            rw [if_neg firstNarrow]
            exact ih here

/-- Every index belongs to an item. -/
theorem exists_item_of_lt (narrow : ∀ a ∈ items, width a = 1 ∨ width a = 2)
    (inside : i < (spread width items).length) :
    ∃ j a, (spread width items)[j]? = some (some a) ∧ j ≤ i ∧ i < j + width a := by
  induction items generalizing i with
  | nil => cases inside
  | cons first items ih =>
      rw [List.forall_mem_cons] at narrow
      have whole : spread width (first :: items) = spread width [first] ++ spread width items :=
        spread_append width [first] items
      have own : (spread width [first]).length = width first := by
        rw [length_spread (List.forall_mem_singleton.mpr narrow.1)]
        exact List.sum_singleton
      rw [whole] at inside ⊢
      rw [List.length_append, own] at inside
      by_cases front : i < width first
      · exact ⟨0, first, rfl, Nat.zero_le i, by omega⟩
      · obtain ⟨j, a, here, below, above⟩ := ih narrow.2 (i := i - width first) (by omega)
        refine ⟨width first + j, a, ?_, by omega, by omega⟩
        rw [List.getElem?_append_right (by omega), own, Nat.add_sub_cancel_left]
        exact here

/-- No index belongs to two items. -/
theorem item_unique (narrow : ∀ a, width a ≤ 2) (first : (spread width items)[j]? = some (some a))
    (second : (spread width items)[k]? = some (some b)) (inFirst : j ≤ i ∧ i < j + width a)
    (inSecond : k ≤ i ∧ i < k + width b) : j = k := by
  have later : ∀ {j k : Nat} {a b : α}, (spread width items)[j]? = some (some a) →
      (spread width items)[k]? = some (some b) → j < k → k ≤ i → i < j + width a → False := by
    intro j k a b first second before reached within
    have bound := narrow a
    have next : k = j + 1 := by omega
    have wide : width a = 2 := by omega
    rw [next, spread_succ_of_wide wide first] at second
    cases second
  rcases Nat.lt_trichotomy j k with before | same | after
  · exact (later first second before inSecond.1 inFirst.2).elim
  · exact same
  · exact (later second first after inFirst.1 inSecond.2).elim

end Spread

namespace Pool

/-- What is asked of a pool. -/
inductive Request where
  | intern (c : Constant)
  | assign (order : IndexOrder)

/-- The pool after a request. -/
def serve (p : Pool) : Request → Pool
  | .intern c => (p.intern c).2
  | .assign order =>
    match p.assign order with
    | .ok q => q
    | .error _ => p

def serveAll (p : Pool) (requests : List Request) : Pool := requests.foldl serve p

/-- Pools at the start of their history. -/
inductive Started : Pool → Prop
  | empty : Started empty
  | read {p : Pool} {c c' : Cursor} (ran : read c = .ok (p, c')) : Started p

/-- The first entry with this constant. -/
def FirstAt (p : Pool) (c : Constant) (ref : ConstantRef) : Prop :=
  p.get ref = .ok c ∧ ∀ i < ref, p.get i ≠ .ok c

/-- The index is one of those that the entry takes. -/
def Takes (p : Pool) (ref : ConstantRef) (i : Nat) : Prop :=
  ∃ (index : UInt16) (c : Constant), p.indexOf ref = .ok index ∧ p.get ref = .ok c ∧
    index.toNat ≤ i ∧ i < index.toNat + c.width

variable {p q : Pool} {c : Constant} {ref : ConstantRef}

theorem Coherent.assign (coherent : p.Coherent) {order : IndexOrder}
    (assigned : p.assign order = .ok q) : q.Coherent := by
  obtain ⟨n, rfl, _⟩ := numbers_of_assign assigned
  exact ⟨coherent.entry, coherent.known⟩

theorem Coherent.serve (coherent : p.Coherent) (request : Request) :
    (p.serve request).Coherent := by
  cases request with
  | intern c => exact coherent.intern c
  | assign order =>
      unfold Pool.serve
      dsimp only
      split
      · exact coherent.assign ‹_›
      · exact coherent

/-- What holds of a pool at all times. -/
structure Sound (p : Pool) : Prop where
  coherent : p.Coherent
  first {c : Constant} {ref : ConstantRef} (found : p.find? c = some ref) : p.FirstAt c ref
  numbered (given : p.isNumbered = true) : p.Numbered

theorem sound_empty : empty.Sound where
  coherent := coherent_empty
  first found := by
    rw [find?_empty] at found
    cases found
  numbered given := by cases given

theorem Sound.append (sound : p.Sound) (c : Constant) : (p.append c).Sound := by
  refine ⟨sound.coherent.append c, ?_, nofun⟩
  intro other ref found
  refine ⟨get_eq_ok.mpr ((sound.coherent.append c).entry found), fun i before => ?_⟩
  rw [find?_append, Option.or_eq_some_iff] at found
  have old : i < p.size → (p.append c).get i = p.get i := by
    intro inside
    have other : i ≠ p.entries.size := Nat.ne_of_lt inside
    unfold get
    rw [Pool.append, Array.getElem?_push, if_neg other]
  rcases found with found | ⟨missing, found⟩
  · have inside : ref < p.size := (Array.getElem?_eq_some_iff.mp (sound.coherent.entry found)).1
    rw [old (before.trans inside)]
    exact (sound.first found).2 i before
  · -- A new entry is the first of its constant, since the constant was not found before.
    split at found
    · cases found
      rw [old before]
      intro there
      obtain ⟨_, known⟩ := sound.coherent.known (Array.mem_of_getElem? (get_eq_ok.mp there))
      rw [missing] at known
      cases known
    · cases found

theorem Sound.intern (sound : p.Sound) (c : Constant) : (p.intern c).2.Sound := by
  unfold Pool.intern
  split
  · exact sound
  · exact sound.append c

theorem Sound.interned (sound : p.Sound) (steps : Relation.ReflTransGen Interned p q) :
    q.Sound := by
  induction steps with
  | refl => exact sound
  | tail _ last ih =>
      obtain ⟨c, rfl⟩ := last
      exact ih.intern c

theorem Sound.assign (sound : p.Sound) {order : IndexOrder} (assigned : p.assign order = .ok q) :
    q.Sound := by
  have numbered := numbered_of_assign assigned
  have coherent := sound.coherent.assign assigned
  obtain ⟨n, rfl, _⟩ := numbers_of_assign assigned
  exact ⟨coherent, sound.first, fun _ => numbered⟩

theorem Sound.numbered_of_indexTable (sound : p.Sound) {table : IndexTable}
    (indices : p.indexTable = .ok table) : p.Numbered := by
  refine sound.numbered ?_
  rw [indexTable] at indices
  split at indices
  · rename_i found
    rw [isNumbered, found]
    rfl
  · cases indices

theorem Started.sound (started : p.Started) : p.Sound := by
  cases started with
  | empty => exact sound_empty
  | read ran =>
      obtain ⟨raw, linked, _, links, assigned⟩ := read_eq_ok.mp ran
      obtain ⟨cs, _, rfl⟩ := RawPool.link_eq_ok.mp links
      exact (cs.foldlRecOn Pool.append sound_empty fun p sound c _ => sound.append c).assign
        assigned

theorem Sound.serve (sound : p.Sound) (request : Request) : (p.serve request).Sound := by
  cases request with
  | intern c => exact sound.intern c
  | assign order =>
      unfold Pool.serve
      dsimp only
      split
      · exact sound.assign ‹_›
      · exact sound

theorem Sound.serveAll (sound : p.Sound) (requests : List Request) :
    (p.serveAll requests).Sound := by
  induction requests generalizing p with
  | nil => exact sound
  | cons request requests ih => exact ih (sound.serve request)

theorem extends_serve (p : Pool) (request : Request) : p.Extends (p.serve request) := by
  cases request with
  | intern c => exact Interned.extends ⟨c, rfl⟩
  | assign order =>
      unfold serve
      dsimp only
      split
      · obtain ⟨n, rfl, _⟩ := numbers_of_assign ‹_›
        exact List.prefix_refl _
      · exact List.prefix_refl _

/-- Constants that are new to a pool are appended. -/
theorem serveAll_intern {p : Pool} {cs : List Constant} (apart : cs.Nodup)
    (fresh : ∀ c ∈ cs, p.find? c = none) :
    p.serveAll (cs.map .intern) = cs.foldl Pool.append p := by
  induction cs generalizing p with
  | nil => rfl
  | cons c cs ih =>
      rw [List.nodup_cons] at apart
      rw [List.forall_mem_cons] at fresh
      have appended : p.serve (.intern c) = p.append c := by
        rw [serve, intern, fresh.1]
      change (p.serve (.intern c)).serveAll (cs.map .intern) = cs.foldl Pool.append (p.append c)
      rw [appended]
      refine ih apart.2 fun other member => ?_
      have different : c ≠ other := by
        rintro rfl
        exact apart.1 member
      rw [find?_append, fresh.2 other member, if_neg different]
      rfl

/-- What a pool finds it finds after any request. -/
theorem within_serve (p : Pool) (request : Request) : p.Within (p.serve request) := by
  cases request with
  | intern c => exact within_of_interned (.single ⟨c, rfl⟩)
  | assign order =>
      unfold serve
      dsimp only
      split
      · exact within_assign ‹_›
      · exact fun _ _ found => found

theorem within_serveAll (p : Pool) (requests : List Request) :
    p.Within (p.serveAll requests) := by
  induction requests generalizing p with
  | nil => exact fun _ _ found => found
  | cons request requests ih => exact fun _ _ found => ih _ (within_serve p request found)

theorem extends_serveAll (p : Pool) (requests : List Request) :
    p.Extends (p.serveAll requests) := by
  induction requests generalizing p with
  | nil => exact List.prefix_refl _
  | cons request requests ih => exact (extends_serve p request).trans (ih _)

theorem Sound.get_intern (sound : p.Sound) (c : Constant) :
    (p.intern c).2.get (p.intern c).1 = .ok c :=
  ((sound.intern c).first (find?_intern p c)).1

/-- Where a constant comes first, it is found. -/
theorem Sound.intern_first (sound : p.Sound) (first : p.FirstAt c ref) : p.intern c = (ref, p) := by
  obtain ⟨other, found⟩ := sound.coherent.known (Array.mem_of_getElem? (get_eq_ok.mp first.1))
  have here := sound.first found
  rcases Nat.lt_trichotomy other ref with before | same | after
  · exact absurd here.1 (first.2 other before)
  · rw [Pool.intern, found, same]
  · exact absurd first.1 (here.2 ref after)

section Indices

variable {n : Numbering} {refs : List ConstantRef}

theorem Numbered.exists_index_iff (numbered : p.Numbered) :
    (∃ index, p.indexOf ref = .ok index) ↔ ∃ c, p.get ref = .ok c := by
  constructor
  · rintro ⟨index, known⟩
    obtain ⟨n, refs, numbering, numbers, _⟩ := numbered
    have inside := (Array.getElem?_eq_some_iff.mp ((indexOf_eq_ok numbering).mp known)).1
    rw [numbers.sized] at inside
    exact ⟨_, get_eq_ok.mpr (Array.getElem?_eq_getElem inside)⟩
  · rintro ⟨c, found⟩
    exact numbered.exists_index (Array.getElem?_eq_some_iff.mp (get_eq_ok.mp found)).1

theorem widthAt_cases (entries : Array Constant) (i : Nat) :
    widthAt entries i = 1 ∨ widthAt entries i = 2 := by
  unfold widthAt
  cases entries[i]? with
  | none => exact .inl rfl
  | some c => exact c.width_cases

/-- An entry has its place in the table, behind the index that is never used. -/
theorem Numbered.spread_iff (numbered : p.Numbered) (numbering : p.numbering = some n)
    (table : n.entryAt.toList = none :: spread (widthAt p.entries) refs) {index : UInt16} :
    p.indexOf ref = .ok index ↔
      ∃ j, index.toNat = j + 1 ∧ (spread (widthAt p.entries) refs)[j]? = some (some ref) := by
  rw [numbered.indexOf_iff, entryAt_eq_ok numbering, ← Array.getElem?_toList, table]
  constructor
  · intro found
    cases same : index.toNat with
    | zero => rw [same] at found; cases found
    | succ j =>
        rw [same, List.getElem?_cons_succ] at found
        exact ⟨j, rfl, found⟩
  · rintro ⟨j, same, found⟩
    rw [same, List.getElem?_cons_succ, found]

theorem takes_iff (numbered : p.Numbered) (numbering : p.numbering = some n)
    (table : n.entryAt.toList = none :: spread (widthAt p.entries) refs) {i : Nat} :
    p.Takes ref i ↔ ∃ j, (spread (widthAt p.entries) refs)[j]? = some (some ref) ∧
      j + 1 ≤ i ∧ i < j + 1 + widthAt p.entries ref := by
  constructor
  · rintro ⟨index, c, known, found, below, above⟩
    obtain ⟨j, same, here⟩ := (numbered.spread_iff numbering table).mp known
    rw [same] at below above
    exact ⟨j, here, below, by rwa [widthAt_eq (get_eq_ok.mp found)]⟩
  · rintro ⟨j, here, below, above⟩
    have short : j + 1 < 65536 := by
      obtain ⟨n', refs', numbering', numbers, _⟩ := numbered
      cases numbering.symm.trans numbering'
      have size := congrArg List.length table
      rw [Array.length_toList, List.length_cons] at size
      have inside := (List.getElem?_eq_some_iff.mp here).1
      have bound := numbers.short
      omega
    have index : (UInt16.ofNat (j + 1)).toNat = j + 1 := by
      rw [UInt16.toNat_ofNat', Nat.mod_eq_of_lt short]
    have known : p.indexOf ref = .ok (UInt16.ofNat (j + 1)) :=
      (numbered.spread_iff numbering table).mpr ⟨j, index, here⟩
    obtain ⟨c, found⟩ := numbered.exists_index_iff.mp ⟨_, known⟩
    refine ⟨_, c, known, found, by omega, ?_⟩
    rwa [index, ← widthAt_eq (get_eq_ok.mp found)]

/-- While a pool has indices, entries and indices determine each other, and every index below the
count but zero is taken by one entry. -/
theorem Numbered.tiles (numbered : p.Numbered) :
    ∃ table, p.indexTable = .ok table ∧ table.size ≤ 65535 ∧
      (∀ i, (∃ ref, p.Takes ref i) ↔ 0 < i ∧ i < table.size) ∧
      ∀ i ref ref', p.Takes ref i → p.Takes ref' i → ref = ref' := by
  obtain ⟨n, refs, numbering, numbers, _⟩ := id numbered
  have place : ∀ {ref : ConstantRef} {i : Nat}, p.Takes ref i ↔
      ∃ j, (spread (widthAt p.entries) refs)[j]? = some (some ref) ∧
        j + 1 ≤ i ∧ i < j + 1 + widthAt p.entries ref :=
    takes_iff numbered numbering numbers.table
  have narrow := widthAt_cases p.entries
  have size : n.entryAt.size = (spread (widthAt p.entries) refs).length + 1 := by
    rw [← Array.length_toList, numbers.table, List.length_cons]
  refine ⟨n.entryAt, by rw [indexTable, numbering], numbers.short, fun i => ⟨?_, ?_⟩, ?_⟩
  · rintro ⟨ref, takes⟩
    obtain ⟨j, here, below, above⟩ := place.mp takes
    refine ⟨by omega, ?_⟩
    rcases narrow ref with one | two
    · have inside := (List.getElem?_eq_some_iff.mp here).1
      omega
    · have inside := (List.getElem?_eq_some_iff.mp (spread_succ_of_wide two here)).1
      omega
  · rintro ⟨positive, inside⟩
    have within : i - 1 < (spread (widthAt p.entries) refs).length := by omega
    obtain ⟨j, ref, here, below, above⟩ := exists_item_of_lt (fun ref _ => narrow ref) within
    exact ⟨ref, place.mpr ⟨j, here, by omega, by omega⟩⟩
  · intro i ref ref' first second
    obtain ⟨j, here, below, above⟩ := place.mp first
    obtain ⟨k, there, below', above'⟩ := place.mp second
    have same : j = k := item_unique (i := i - 1) (fun ref => by have := narrow ref; omega) here
      there ⟨by omega, by omega⟩ ⟨by omega, by omega⟩
    rw [same, there] at here
    cases here
    rfl

/-- An entry at an index takes the index. -/
theorem Numbered.takes_entryAt (numbered : p.Numbered) {index : UInt16}
    (found : p.entryAt index = .ok ref) : p.Takes ref index.toNat := by
  have known := numbered.indexOf_iff.mpr found
  obtain ⟨c, held⟩ := numbered.exists_index_iff.mp ⟨index, known⟩
  refine ⟨index, c, known, held, Nat.le_refl _, ?_⟩
  rcases c.width_cases with one | two
  · omega
  · omega

end Indices

/-- At any time in the history of a pool: interning a constant answers an entry that holds it, the
first one and without a change if there is one; entries stay; as long as the pool has indices, they
are a bijection with the entries and tile the range from one up to the count; otherwise there are
none. -/
theorem serveAll_invariant (started : p.Started) (requests : List Request)
    (reached : p.serveAll requests = q) :
    (∀ c, (q.intern c).2.get (q.intern c).1 = .ok c ∧
      ∀ ref, q.FirstAt c ref → q.intern c = (ref, q)) ∧
    (∀ more ref c, q.get ref = .ok c → (p.serveAll (requests ++ more)).get ref = .ok c) ∧
    (q.isNumbered = true →
      (∀ ref index, q.indexOf ref = .ok index ↔ q.entryAt index = .ok ref) ∧
      (∀ ref, (∃ index, q.indexOf ref = .ok index) ↔ ∃ c, q.get ref = .ok c) ∧
      (∃ table, q.indexTable = .ok table ∧
        (∀ i, (∃ ref, q.Takes ref i) ↔ 0 < i ∧ i < table.size) ∧
        ∀ i ref ref', q.Takes ref i → q.Takes ref' i → ref = ref') ∧
      (∀ ref, q.entryAt 0 ≠ .ok ref) ∧
      ∀ ref index c, q.indexOf ref = .ok index → q.get ref = .ok c → c.width = 2 →
        ∀ ref', q.entryAt (index + 1) ≠ .ok ref') ∧
    (q.isNumbered = false →
      ∀ ref index, q.indexOf ref = .error (.indexUnassigned ref) ∧
        q.entryAt index = .error (.missingConstant index)) := by
  have sound : q.Sound := reached ▸ started.sound.serveAll requests
  have later : ∀ more, p.serveAll (requests ++ more) = q.serveAll more :=
    fun more => reached ▸ List.foldl_append
  refine ⟨fun c => ⟨sound.get_intern c, fun ref => sound.intern_first⟩, ?_, ?_, ?_⟩
  · intro more ref c found
    rw [later]
    exact get_eq_ok.mpr ((extends_serveAll q more).entry (get_eq_ok.mp found))
  · intro given
    have numbered := sound.numbered given
    obtain ⟨table, same, short, tiles, apart⟩ := numbered.tiles
    refine ⟨fun _ _ => numbered.indexOf_iff, fun _ => numbered.exists_index_iff,
      ⟨table, same, tiles, apart⟩, ?_, ?_⟩
    · intro ref found
      exact Nat.lt_irrefl 0 ((tiles 0).mp ⟨ref, numbered.takes_entryAt found⟩).1
    · intro ref index c known held wide ref' found
      -- The entry takes both indices, so what is found at the second one is the entry itself.
      have second : q.Takes ref (index.toNat + 1) := ⟨index, c, known, held, by omega, by omega⟩
      have room := ((tiles _).mp ⟨ref, second⟩).2
      have next : (index + 1).toNat = index.toNat + 1 := by
        rw [UInt16.toNat_add]
        exact Nat.mod_eq_of_lt (by change index.toNat + 1 < 65536; omega)
      have there := numbered.takes_entryAt found
      rw [next] at there
      cases apart _ _ _ second there
      have same := Except.ok.inj (known.symm.trans (numbered.indexOf_iff.mpr found))
      have impossible := congrArg UInt16.toNat same
      omega
  · intro void ref index
    unfold isNumbered at void
    rw [Option.isSome_eq_false_iff, Option.isNone_iff_eq_none] at void
    exact ⟨by rw [indexOf, void], by rw [entryAt, void]⟩

/-- A file whose pool has one text twice and a wide entry. -/
def doubled : Bytes := [0, 5, 1, 0, 1, 97, 1, 0, 1, 97, 5, 0, 0, 0, 0, 0, 0, 0, 5]

/-- Its pool, with any numbering. -/
def doubledPool (n : Option Numbering) : Pool :=
  { ((empty.append (.utf8 "a")).append (.utf8 "a")).append (.long 5) with numbering := n }

theorem read_doubled : ∃ n c, read ⟨0, doubled⟩ = .ok (doubledPool (some n), c) := by
  have raw : RawPool.read ⟨0, doubled⟩ = .ok (⟨#[.utf8 "a", .utf8 "a", .long 5],
      #[none, some 0, some 1, some 2, none]⟩, ⟨19, []⟩) := by
    cbv
  obtain ⟨p, assigned⟩ := exists_assign (p := doubledPool none) .preserve (by decide)
  obtain ⟨n, rfl, -⟩ := numbers_of_assign assigned
  exact ⟨n, _, read_eq_ok.mpr ⟨_, _, raw, rfl, assigned⟩⟩

theorem find?_doubledPool (n : Option Numbering) : (doubledPool n).find? (.utf8 "a") = some 0 ∧
    (doubledPool n).find? (.integer 7) = none := by
  have same : ∀ c, (doubledPool n).find? c =
      (((empty.append (.utf8 "a")).append (.utf8 "a")).append (.long 5)).find? c := fun _ => rfl
  simp only [same, find?_append, find?_empty]
  exact ⟨rfl, rfl⟩

/-- The first of three requests finds its constant, the second makes the indices void and the third
assigns new ones. -/
theorem serveAll_invariant_doubled : ∃ p c q, read ⟨0, doubled⟩ = .ok (p, c) ∧
    p.isNumbered = true ∧
    p.serveAll [.intern (.utf8 "a"), .intern (.integer 7)] = p.append (.integer 7) ∧
    (p.append (.integer 7)).indexOf 2 = .error (.indexUnassigned 2) ∧
    p.serveAll [.intern (.utf8 "a"), .intern (.integer 7), .assign .preserve] = q ∧
    q.isNumbered = true ∧ q.intern (.utf8 "a") = (0, q) ∧ q.indexOf 2 = .ok 3 ∧
    (∀ ref, q.entryAt 4 ≠ .ok ref) ∧ q.entryAt 5 = .ok 3 := by
  obtain ⟨n, c, ran⟩ := read_doubled
  obtain ⟨known, missing⟩ := find?_doubledPool (some n)
  have found : (doubledPool (some n)).serve (.intern (.utf8 "a")) = doubledPool (some n) :=
    congrArg Prod.snd (intern_of_found known)
  have fresh : (doubledPool (some n)).serve (.intern (.integer 7)) =
      (doubledPool none).append (.integer 7) := by
    rw [serve, intern, missing]
    rfl
  have two : (doubledPool (some n)).serveAll [.intern (.utf8 "a"), .intern (.integer 7)] =
      (doubledPool none).append (.integer 7) := by
    simp only [serveAll, List.foldl_cons, List.foldl_nil, found, fresh]
  obtain ⟨q, assigned⟩ :=
    exists_assign (p := (doubledPool none).append (.integer 7)) .preserve (by decide)
  have three : (doubledPool (some n)).serveAll
      [.intern (.utf8 "a"), .intern (.integer 7), .assign .preserve] = q := by
    simp only [serveAll, List.foldl_cons, List.foldl_nil, found, fresh]
    rw [serve, assigned]
  have void := (serveAll_invariant (.read ran) _ two).2.2.2 rfl 2 0
  have holds := serveAll_invariant (.read ran) _ three
  obtain ⟨m, rfl, numbers⟩ := numbers_of_assign assigned
  obtain ⟨inverse, -, -, -, behind⟩ := holds.2.2.1 rfl
  have wide := (inverse 2 3).mpr (by
    rw [entryAt_eq_ok rfl, ← Array.getElem?_toList, numbers.table]
    rfl)
  have first := (holds.1 (.utf8 "a")).2 0 ⟨rfl, fun i before => absurd before (Nat.not_lt_zero i)⟩
  refine ⟨_, c, _, ran, rfl, two, void.1, three, rfl, first, wide,
    behind 2 3 (.long 5) wide rfl rfl, ?_⟩
  rw [entryAt_eq_ok rfl, ← Array.getElem?_toList, numbers.table]
  rfl

end Pool

end JvmAssembly
