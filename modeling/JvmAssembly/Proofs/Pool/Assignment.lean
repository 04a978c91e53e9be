import Mathlib
import JvmAssembly.Proofs.Pool.History

/-!
When indices can be handed out, and which ones. The index of an entry is one more than what the
entries before it take, so it depends on nothing that comes later. Whether there are enough indices
depends on the widths alone and not on the order. The entries of a file fit, since they had indices
there, and they keep them.
-/
namespace JvmAssembly

section Spread

variable {α : Type} {width : α → Nat} {items front front' back back' : List α} {a b : α} {j : Nat}

/-- An item stands behind what the items before it take. -/
theorem spread_getElem?_iff : (spread width items)[j]? = some (some a) ↔
    ∃ front back, items = front ++ a :: back ∧ j = (spread width front).length := by
  constructor
  · intro here
    induction items generalizing j with
    | nil => cases here
    | cons first items ih =>
        have whole : spread width (first :: items) = spread width [first] ++ spread width items :=
          spread_append width [first] items
        rw [whole, List.getElem?_append] at here
        split at here
        · -- The item itself comes first; behind it an index stays unused.
          rw [spread_singleton] at here
          cases j with
          | zero =>
              cases here
              exact ⟨[], items, rfl, rfl⟩
          | succ j =>
              rw [List.getElem?_cons_succ] at here
              split at here
              · cases j <;> cases here
              · cases here
        · rename_i beyond
          obtain ⟨front, back, rfl, place⟩ := ih here
          refine ⟨first :: front, back, rfl, ?_⟩
          rw [← List.singleton_append, spread_append, List.length_append, ← place]
          omega
  · rintro ⟨front, back, rfl, rfl⟩
    rw [spread_append, List.getElem?_append_right (Nat.le_refl _), Nat.sub_self]
    rfl

/-- Of two items in a list, the earlier one has less before it. -/
theorem sum_lt_iff {earlier : α → α → Prop} (asymm : ∀ a b, earlier a b → ¬ earlier b a)
    (positive : ∀ a, 0 < width a) (sorted : items.Pairwise earlier)
    (first : items = front ++ a :: back) (second : items = front' ++ b :: back') :
    (front.map width).sum < (front'.map width).sum ↔ earlier a b := by
  have less : ∀ {front between back : List α} {a b : α},
      items = front ++ a :: between ++ b :: back →
      (front.map width).sum < ((front ++ a :: between).map width).sum ∧ earlier a b := by
    intro front between back a b split
    have more := positive a
    refine ⟨by simp; omega, ?_⟩
    rw [split, List.append_assoc] at sorted
    exact List.rel_of_pairwise_cons (List.pairwise_append.mp sorted).2.1 (by simp)
  have irrefl : ¬ earlier a a := fun same => asymm a a same same
  rcases List.append_eq_append_iff.mp (first.symm.trans second) with
    ⟨between, rfl, rest⟩ | ⟨between, rfl, rest⟩
  · cases between with
    | nil =>
        cases rest
        rw [List.append_nil]
        exact iff_of_false (Nat.lt_irrefl _) irrefl
    | cons c between =>
        cases rest
        exact iff_of_true (less second).1 (less second).2
  · cases between with
    | nil =>
        cases rest
        rw [List.append_nil]
        exact iff_of_false (Nat.lt_irrefl _) irrefl
    | cons c between =>
        cases rest
        exact iff_of_false (Nat.lt_asymm (less first).1) (asymm _ _ (less first).2)

end Spread

namespace Pool

variable {p q r : Pool} {order : IndexOrder} {ref ref' : ConstantRef} {index index' : UInt16}

theorem sum_ordered (p : Pool) (order : IndexOrder) :
    ((p.ordered order).map (widthAt p.entries)).sum = (p.entries.toList.map (·.width)).sum := by
  rw [((p.ordered_perm order).map _).sum_eq, size, map_widthAt_range]

/-- Indices suffice or do not, whatever the order. -/
theorem exists_assign_iff (order : IndexOrder) :
    (∃ q, p.assign order = .ok q) ↔ 1 + (p.entries.toList.map (·.width)).sum ≤ 65535 := by
  have total : (spread (widthAt p.entries) (p.ordered order)).length =
      (p.entries.toList.map (·.width)).sum := by
    rw [length_spread fun ref _ => widthAt_cases p.entries ref, sum_ordered]
  constructor
  · rintro ⟨q, assigned⟩
    obtain ⟨n, -, numbers⟩ := numbers_of_assign assigned
    have short := numbers.short
    rw [← Array.length_toList, numbers.table, List.length_cons, total] at short
    omega
  · intro short
    exact exists_assign order (by omega)

/-- There are no indices left for an entry. -/
def RunsOut (fault : Fault) : Prop := ∃ c index, fault = .poolOverflow c index

theorem failsWith_number (n : Numbering) (inside : ref < p.size) :
    FailsWith RunsOut (p.number n ref) := by
  intro fault failed
  rw [number, Array.getElem?_eq_getElem inside] at failed
  dsimp only at failed
  split at failed
  · cases failed
    exact ⟨_, _, rfl⟩
  · cases failed

theorem failsWith_numberAll (n : Numbering) {refs : List ConstantRef}
    (inside : ∀ ref ∈ refs, ref < p.size) : FailsWith RunsOut (p.numberAll n refs) := by
  induction refs generalizing n with
  | nil => exact failsWith_ok n
  | cons ref refs ih =>
      rw [List.forall_mem_cons] at inside
      rw [numberAll]
      split
      · exact ih _ inside.2
      · rename_i fault failed
        exact failsWith_error (failsWith_number n inside.1 fault failed)

/-- The only thing that goes wrong is that indices run out. -/
theorem failsWith_assign (p : Pool) (order : IndexOrder) :
    FailsWith RunsOut (p.assign order) := by
  have inside : ∀ ref ∈ p.ordered order, ref < p.size := fun ref member =>
    List.mem_range.mp ((p.ordered_perm order).mem_iff.mp member)
  rw [assign]
  split
  · exact failsWith_ok _
  · rename_i fault failed
    exact failsWith_error (failsWith_numberAll _ inside fault failed)

/-- The index of an entry is one more than what the entries before it take. -/
theorem indexOf_assign_iff (assigned : p.assign order = .ok q) : q.indexOf ref = .ok index ↔
    ∃ front back, p.ordered order = front ++ ref :: back ∧
      index.toNat = 1 + (front.map (widthAt p.entries)).sum := by
  have numbered := numbered_of_assign assigned
  obtain ⟨n, rfl, numbers⟩ := numbers_of_assign assigned
  rw [numbered.spread_iff rfl numbers.table]
  constructor
  · rintro ⟨j, same, here⟩
    obtain ⟨front, back, split, rfl⟩ := spread_getElem?_iff.mp here
    rw [length_spread fun ref _ => widthAt_cases p.entries ref] at same
    exact ⟨front, back, split, by omega⟩
  · rintro ⟨front, back, split, same⟩
    refine ⟨_, ?_, spread_getElem?_iff.mpr ⟨front, back, split, rfl⟩⟩
    rw [length_spread fun ref _ => widthAt_cases p.entries ref]
    omega

theorem exists_indexOf_assign (assigned : p.assign order = .ok q) (inside : ref < p.size) :
    ∃ index, q.indexOf ref = .ok index := by
  have numbered := numbered_of_assign assigned
  obtain ⟨n, rfl, -⟩ := numbers_of_assign assigned
  exact numbered.exists_index inside

section Priority

/-- An integer, a float or a string: what the short load can have use of. -/
def Favours (p : Pool) (ref : ConstantRef) : Prop :=
  (∃ value, p.get ref = .ok (.integer value)) ∨ (∃ bits, p.get ref = .ok (.float bits)) ∨
    ∃ text, p.get ref = .ok (.string text)

theorem favours_iff : p.Favours ref ↔ p.entries[ref]?.any (·.isPriority) = true := by
  simp only [Favours, get_eq_ok]
  cases p.entries[ref]? with
  | none => simp
  | some c => cases c <;> simp [ConstantOf.isPriority]

/-- Favoured entries first, else in the order of insertion. -/
def Sooner (p : Pool) (ref ref' : ConstantRef) : Prop :=
  p.Favours ref ∧ ¬ p.Favours ref' ∨ (p.Favours ref ↔ p.Favours ref') ∧ ref < ref'

theorem Sooner.asymm (sooner : p.Sooner ref ref') : ¬ p.Sooner ref' ref := by
  rcases sooner with ⟨one, other⟩ | ⟨same, before⟩
  · rintro (⟨wrong, -⟩ | ⟨same, -⟩)
    · exact other wrong
    · exact other (same.mpr one)
  · rintro (⟨one, other⟩ | ⟨-, after⟩)
    · exact other (same.mpr one)
    · exact Nat.lt_asymm before after

theorem pairwise_priority (p : Pool) : (p.ordered .priority).Pairwise p.Sooner := by
  have increasing : (List.range p.size).Pairwise (· < ·) := List.pairwise_lt_range
  simp only [ordered, List.partition_eq_filter_filter]
  refine List.pairwise_append.mpr ⟨?_, ?_, ?_⟩
  · refine (increasing.filter _).imp_of_mem fun {a b} first second before => .inr ⟨?_, before⟩
    have one := favours_iff.mpr (List.mem_filter.mp first).2
    have two := favours_iff.mpr (List.mem_filter.mp second).2
    exact iff_of_true one two
  · refine (increasing.filter _).imp_of_mem fun {a b} first second before => .inr ⟨?_, before⟩
    have one : ¬ p.Favours a := by
      simpa [favours_iff] using (List.mem_filter.mp first).2
    have two : ¬ p.Favours b := by
      simpa [favours_iff] using (List.mem_filter.mp second).2
    exact iff_of_false one two
  · intro a first b second
    have two : ¬ p.Favours b := by
      simpa [favours_iff] using (List.mem_filter.mp second).2
    exact .inl ⟨favours_iff.mpr (List.mem_filter.mp first).2, two⟩

theorem lt_iff_sooner (assigned : p.assign .priority = .ok q) (one : q.indexOf ref = .ok index)
    (other : q.indexOf ref' = .ok index') : index < index' ↔ p.Sooner ref ref' := by
  obtain ⟨front, back, here, low⟩ := (indexOf_assign_iff assigned).mp one
  obtain ⟨front', back', there, high⟩ := (indexOf_assign_iff assigned).mp other
  have positive : ∀ ref, 0 < widthAt p.entries ref := fun ref => by
    rcases widthAt_cases p.entries ref with one | two <;> omega
  rw [← sum_lt_iff (fun _ _ => Sooner.asymm) positive p.pairwise_priority here there,
    UInt16.lt_iff_toNat_lt]
  omega

end Priority

section Preserve

/-- What the entries before one take, and the index that is never used. -/
def offset (p : Pool) (ref : ConstantRef) : Nat :=
  1 + ((p.entries.toList.take ref).map (·.width)).sum

theorem indexOf_preserve (assigned : p.assign .preserve = .ok q) (inside : ref < p.size) :
    q.indexOf ref = .ok (UInt16.ofNat (p.offset ref)) := by
  obtain ⟨index, known⟩ := exists_indexOf_assign assigned inside
  obtain ⟨front, back, split, same⟩ := (indexOf_assign_iff assigned).mp known
  rw [ordered] at split
  have here : front.length = ref := by
    have found : (List.range p.size)[front.length]? = some ref := by rw [split]; simp
    obtain ⟨within, same⟩ := List.getElem?_eq_some_iff.mp found
    rwa [List.getElem_range] at same
  have widths : front.map (widthAt p.entries) = (p.entries.toList.take ref).map (·.width) := by
    rw [List.map_take, ← map_widthAt_range, ← List.map_take, ← here]
    exact congrArg _ (split ▸ List.take_left.symm)
  rw [known, ← UInt16.ofNat_toNat (x := index), same, widths, offset]

/-- Entries that come later move nothing. -/
theorem offset_extends (grown : p.Extends q) (inside : ref < p.size) :
    q.offset ref = p.offset ref := by
  obtain ⟨more, same⟩ := grown
  have short : ref ≤ p.entries.toList.length := Nat.le_of_lt inside
  rw [offset, offset, ← same, List.take_append_of_le_length short]

theorem entries_assign (assigned : p.assign order = .ok q) : q.entries = p.entries := by
  obtain ⟨n, rfl, -⟩ := numbers_of_assign assigned
  rfl

theorem indexOf_preserve_again (assigned : p.assign .preserve = .ok q) (requests : List Request)
    (again : (q.serveAll requests).assign .preserve = .ok r) (inside : ref < p.size) :
    r.indexOf ref = .ok (UInt16.ofNat (p.offset ref)) := by
  have grown : p.Extends (q.serveAll requests) := by
    have later := extends_serveAll q requests
    rwa [Extends, entries_assign assigned] at later
  have within : ref < (q.serveAll requests).size := Nat.lt_of_lt_of_le inside grown.length_le
  rw [indexOf_preserve again within, offset_extends grown inside]

end Preserve

end Pool

section Reading

/-- The input is no pool. -/
def Fault.isOfInput : Fault → Bool
  | .endOfInput | .malformed _ | .missingConstant _ => true
  | _ => false

theorem RawConstant.fails_read : Reader.Fails (·.isOfInput = true) RawConstant.read := by
  unfold RawConstant.read
  refine .bind (.scan _ rfl) fun tag => ?_
  split
  all_goals try exact .bind (.scan _ rfl) fun _ => .pure _
  all_goals try exact .bind (.scan _ rfl) fun _ => .bind (.scan _ rfl) fun _ => .pure _
  · refine .bind (.scan _ rfl) fun size => .bind (.scan _ rfl) fun bytes => ?_
    split
    · exact .pure _
    · exact .fail rfl
  · refine .bind (.scan _ rfl) fun kind => ?_
    split
    · exact .bind (.scan _ rfl) fun _ => .pure _
    · exact .fail rfl
  · exact .fail rfl

theorem RawPool.fails_readEntries (count budget : Nat) (raw : RawPool) :
    Reader.Fails (·.isOfInput = true) (readEntries count raw budget) := by
  intro c
  induction budget generalizing raw c with
  | zero => exact failsWith_ok _
  | succ budget ih =>
      rw [readEntries]
      split
      · split
        · rename_i fault failed
          exact failsWith_error (RawConstant.fails_read c fault failed)
        · exact ih _ _
      · exact failsWith_ok _

theorem RawPool.fails_read : Reader.Fails (·.isOfInput = true) read := by
  refine .bind (.scan _ rfl) fun count => .bind (fails_readEntries _ _ _) fun raw => ?_
  split
  · exact .pure _
  · exact .fail rfl

theorem ConstantOf.failsWith_mapLinks {ρ σ : Type} {kind : Fault → Prop} {f : ρ → Except Fault σ}
    (each : ∀ link, FailsWith kind (f link)) (c : ConstantOf ρ) :
    FailsWith kind (c.mapLinks f) := by
  cases c with
  | utf8 | integer | float | long | double => exact failsWith_ok _
  | classInfo link | string link | methodHandle _ link | methodType link | invokeDynamic _ link =>
      exact (each link).bind fun _ _ => failsWith_ok _
  | fieldRef one other | methodRef one other | nameAndType one other =>
      exact (each one).bind fun _ _ => (each other).bind fun _ _ => failsWith_ok _

theorem RawPool.failsWith_link (positions : Pool.IndexTable) (pool : Pool) (cs : List RawConstant) :
    FailsWith (·.isOfInput = true) (link positions pool cs) := by
  have missing : ∀ index, FailsWith (·.isOfInput = true) (positions.lookup index) := by
    intro index
    rw [Pool.IndexTable.lookup]
    split
    · exact failsWith_ok _
    · exact failsWith_error rfl
  induction cs generalizing pool with
  | nil => exact failsWith_ok _
  | cons c cs ih =>
      rw [link]
      split
      · exact ih _
      · rename_i fault failed
        exact failsWith_error (ConstantOf.failsWith_mapLinks missing c fault failed)

theorem Pool.fails_read : Reader.Fails (·.isOfInput = true) read := by
  intro c
  rw [read]
  split
  · rename_i fault failed
    exact failsWith_error (RawPool.fails_read c fault failed)
  · rename_i raw c' found
    obtain ⟨bytes, ⟨laid, short, -⟩, -⟩ := RawPool.accepts_read.reveals found
    split
    · rename_i fault failed
      exact failsWith_error (RawPool.failsWith_link _ _ _ fault failed)
    · rename_i linked links
      obtain ⟨p, assigned⟩ := exists_assign_link laid short links
      rw [assigned]
      exact failsWith_ok _

/-- Entries as they stand in a file, each at the index behind what those before it take. -/
structure Pool.Indexes (p : Pool) (entries : List RawEntry) : Prop where
  size : p.size = entries.length
  entry : ∀ k e, entries[k]? = some e →
    p.indexOf k = .ok (UInt16.ofNat (1 + ((entries.take k).map (·.width)).sum)) ∧
      ∃ c, e.constant = .ok c ∧ p.raw k = .ok c

theorem Pool.indexes_of_read {p : Pool} {c c' : Cursor} (ran : read c = .ok (p, c')) :
    ∃ entries parts, List.Forall₂ (fun e part => RawEntry.write e = .ok part) entries parts ∧
      1 + (entries.map (·.width)).sum ≤ 65535 ∧
      c.rest = be16 (UInt16.ofNat (1 + (entries.map (·.width)).sum)) ++ parts.flatten ++ c'.rest ∧
      p.Indexes entries := by
  obtain ⟨raw, linked, found, links, assigned⟩ := read_eq_ok.mp ran
  obtain ⟨bytes, spelled, taken⟩ := RawPool.accepts_read.reveals found
  have laid := spelled.1
  obtain ⟨entries, parts, written, constants, short, rfl⟩ := (RawPool.spelled_iff laid).mp spelled
  have holds := holds_of_link laid links assigned
  obtain ⟨cs, each, made⟩ := RawPool.link_eq_ok.mp links
  obtain ⟨same, size⟩ := entries_link made each
  have widths : linked.entries.toList.map (·.width) = entries.map (·.width) := by
    rw [same, List.toList_toArray, widths_linked each, RawEntry.widths_eq constants]
  have length : linked.size = entries.length := by
    rw [size, constants.length_eq, Array.length_toList]
  refine ⟨entries, parts, written, short, taken, ?_, ?_⟩
  · rw [Pool.size, entries_assign assigned]
    exact length
  · intro k e here
    have inside : k < linked.size := length ▸ (List.getElem?_eq_some_iff.mp here).1
    refine ⟨?_, ?_⟩
    · rw [indexOf_preserve assigned inside, offset, List.map_take, widths, ← List.map_take]
    · have within : k < raw.entries.size := size ▸ inside
      refine ⟨raw.entries[k], ?_, holds.entry (Array.getElem?_eq_getElem within)⟩
      obtain ⟨here', rfl⟩ := List.getElem?_eq_some_iff.mp here
      exact (List.forall₂_iff_get.mp constants).2 k here' (by simpa using within)

end Reading

/-- Indices can be assigned in one order exactly if they can in the other, when the widths leave
room; else the pool stays as it is. The priority order puts integers, floats and strings first and
keeps to insertion otherwise. The index of an entry in the order of insertion stays the same however
the pool grows. A pool that is read always has room and has its entries where the file has them. -/
theorem Pool.assign_settled (p : Pool) :
    (∀ order, (∃ q, p.assign order = .ok q) ↔
      1 + (p.entries.toList.map (·.width)).sum ≤ 65535) ∧
    (∀ order fault, p.assign order = .error fault →
      (∃ c index, fault = .poolOverflow c index) ∧ p.serve (.assign order) = p) ∧
    (∀ q, p.assign .priority = .ok q → ∀ ref ref', ref < p.size → ref' < p.size →
      ∃ i i', q.indexOf ref = .ok i ∧ q.indexOf ref' = .ok i' ∧
        (i < i' ↔ p.Favours ref ∧ ¬ p.Favours ref' ∨
          (p.Favours ref ↔ p.Favours ref') ∧ ref < ref')) ∧
    (∀ q, p.assign .preserve = .ok q → ∀ ref < p.size,
      q.indexOf ref = .ok (UInt16.ofNat (p.offset ref)) ∧
      ∀ requests r, (q.serveAll requests).assign .preserve = .ok r →
        r.indexOf ref = q.indexOf ref) ∧
    ∀ c : Cursor, (∀ constant index, read c ≠ .error (.poolOverflow constant index)) ∧
      ∀ q c', read c = .ok (q, c') → ∃ entries parts,
        List.Forall₂ (fun e part => RawEntry.write e = .ok part) entries parts ∧
        1 + (entries.map (·.width)).sum ≤ 65535 ∧
        c.rest = be16 (UInt16.ofNat (1 + (entries.map (·.width)).sum)) ++ parts.flatten ++ c'.rest ∧
        q.Indexes entries := by
  refine ⟨exists_assign_iff, ?_, ?_, ?_, fun c => ⟨?_, fun q c' => indexes_of_read⟩⟩
  · intro order fault failed
    exact ⟨failsWith_assign p order fault failed, by rw [serve, failed]⟩
  · intro q assigned ref ref' inside inside'
    obtain ⟨i, one⟩ := exists_indexOf_assign assigned inside
    obtain ⟨i', other⟩ := exists_indexOf_assign assigned inside'
    exact ⟨i, i', one, other, lt_iff_sooner assigned one other⟩
  · intro q assigned ref inside
    have now := indexOf_preserve assigned inside
    refine ⟨now, fun requests r again => ?_⟩
    rw [now, indexOf_preserve_again assigned requests again inside]
  · intro constant index failed
    cases fails_read c _ failed

/-- A text, a wide entry and a number. -/
def Pool.mixed : Pool := ((Pool.empty.append (.utf8 "a")).append (.long 5)).append (.integer 7)

theorem Pool.assign_settled_mixed : ∃ q q' r, mixed.assign .priority = .ok q ∧
    (∃ i i', q.indexOf 2 = .ok i ∧ q.indexOf 0 = .ok i' ∧ i < i') ∧
    mixed.assign .preserve = .ok q' ∧ q'.indexOf 2 = .ok 4 ∧
    (q'.serveAll [.intern (.float 1)]).assign .preserve = .ok r ∧ r.indexOf 2 = .ok 4 := by
  obtain ⟨room, -, priority, preserve, -⟩ := assign_settled mixed
  obtain ⟨q, first⟩ := (room .priority).mpr (by decide)
  obtain ⟨q', second⟩ := (room .preserve).mpr (by decide)
  have entries := entries_assign second
  obtain ⟨r, third⟩ := ((assign_settled (q'.serveAll [.intern (.float 1)])).1 .preserve).mpr (by
    rw [serveAll, List.foldl_cons, List.foldl_nil, serve, intern]
    split
    · rw [entries]
      decide
    · change 1 + ((q'.entries.push (.float 1)).toList.map (·.width)).sum ≤ 65535
      rw [entries]
      decide)
  obtain ⟨i, i', one, other, order⟩ := priority q first 2 0 (by decide) (by decide)
  have number : mixed.Favours 2 := .inl ⟨7, rfl⟩
  have text : ¬ mixed.Favours 0 := by
    rw [favours_iff]
    decide
  obtain ⟨known, later⟩ := preserve q' second 2 (by decide)
  exact ⟨q, q', r, first, ⟨i, i', one, other, order.mpr (.inl ⟨number, text⟩)⟩, second, known,
    third, (later _ r third).trans known⟩

end JvmAssembly
