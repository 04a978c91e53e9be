import Mathlib
import JvmAssembly.Proofs.Pool.Format
import JvmAssembly.Proofs.Pool.Interning

/-!
Reading a pool that was written, and writing a pool that was read. A pool that is read holds the
entries of the file at their indices. A pool that is written reads back with the same entries at
the same indices, although their positions may differ.
-/
namespace JvmAssembly

/-- The pool holds the entries of a file at the indices that they have there. -/
structure Pool.Holds (p : Pool) (raw : RawPool) : Prop where
  numbered : p.Numbered
  numbering : ∃ n, p.numbering = some n ∧ n.order.toList = List.range raw.entries.size ∧
    n.entryAt = raw.positions
  entry {i : Nat} {c : RawConstant} (found : raw.entries[i]? = some c) : p.raw i = .ok c

namespace RawPool

theorem link_eq_ok {positions : Pool.IndexTable} {pool pool' : Pool} {cs : List RawConstant} :
    link positions pool cs = .ok pool' ↔
      ∃ cs', List.Forall₂ (ConstantOf.Linked fun index ref => positions.lookup index = .ok ref)
        cs cs' ∧ pool' = cs'.foldl Pool.append pool := by
  induction cs generalizing pool with
  | nil =>
      constructor
      · intro linked
        cases linked
        exact ⟨[], .nil, rfl⟩
      · rintro ⟨_, ⟨⟩, rfl⟩
        rfl
  | cons c cs ih =>
      rw [link]
      constructor
      · intro linked
        cases one : c.mapLinks positions.lookup with
        | error fault => rw [one] at linked; cases linked
        | ok c' =>
            rw [one] at linked
            obtain ⟨cs', rest, made⟩ := ih.mp linked
            exact ⟨c' :: cs', .cons (ConstantOf.mapLinks_eq_ok.mp one) rest, made⟩
      · rintro ⟨_, _ | ⟨one, rest⟩, made⟩
        rw [ConstantOf.mapLinks_eq_ok.mpr one]
        exact ih.mpr ⟨_, rest, made⟩

end RawPool

namespace Pool

theorem entries_append (p : Pool) (cs : List Constant) :
    (cs.foldl append p).entries = p.entries ++ cs := by
  induction cs generalizing p with
  | nil => exact Array.appendList_nil.symm
  | cons c cs ih => exact (ih (p.append c)).trans Array.appendList_cons.symm

/-- The spellings of a pool: its entries are linked and keep their indices. -/
def Spelled (bytes : Bytes) (p : Pool) : Prop :=
  ∃ raw linked, RawPool.Spelled bytes raw ∧
    RawPool.link raw.positions .empty raw.entries.toList = .ok linked ∧
    linked.assign .preserve = .ok p

theorem read_eq_ok {c c' : Cursor} {p : Pool} :
    read c = .ok (p, c') ↔ ∃ raw linked, RawPool.read c = .ok (raw, c') ∧
      RawPool.link raw.positions .empty raw.entries.toList = .ok linked ∧
      linked.assign .preserve = .ok p := by
  constructor
  · intro ran
    unfold read at ran
    split at ran
    · cases ran
    · rename_i raw c₁ found
      split at ran
      · cases ran
      · rename_i linked links
        split at ran
        · cases ran
        · rename_i q assigned
          cases ran
          exact ⟨raw, linked, found, links, assigned⟩
  · rintro ⟨raw, linked, found, links, assigned⟩
    simp only [read, found, links, assigned]

theorem accepts_read : Reader.Accepts read Spelled := by
  constructor
  · rintro bytes p ⟨raw, linked, spelled, links, assigned⟩ position rest
    exact read_eq_ok.mpr ⟨raw, linked, RawPool.accepts_read.reads spelled position rest, links,
      assigned⟩
  · intro c c' p ran
    obtain ⟨raw, linked, found, links, assigned⟩ := read_eq_ok.mp ran
    obtain ⟨bytes, spelled, taken⟩ := RawPool.accepts_read.reveals found
    exact ⟨bytes, ⟨raw, linked, spelled, links, assigned⟩, taken⟩

theorem Spelled.coherent {bytes : Bytes} {p : Pool} (spelled : Spelled bytes p) : p.Coherent := by
  obtain ⟨raw, linked, _, links, assigned⟩ := spelled
  obtain ⟨cs, _, rfl⟩ := RawPool.link_eq_ok.mp links
  obtain ⟨n, rfl, _⟩ := numbers_of_assign assigned
  have appended := cs.foldlRecOn Pool.append coherent_empty fun p coherent c _ => coherent.append c
  exact ⟨appended.entry, appended.known⟩

/-- Linked entries have the widths that they had. -/
theorem widths_linked {ρ σ : Type} {R : ρ → σ → Prop} {cs : List (ConstantOf ρ)}
    {cs' : List (ConstantOf σ)} (linked : List.Forall₂ (ConstantOf.Linked R) cs cs') :
    cs'.map (·.width) = cs.map (·.width) := by
  induction linked with
  | nil => rfl
  | cons one _ ih => rw [List.map_cons, List.map_cons, one.width, ih]

theorem widthAt_linked {ρ σ : Type} {R : ρ → σ → Prop} {cs : List (ConstantOf ρ)}
    {cs' : List (ConstantOf σ)} (linked : List.Forall₂ (ConstantOf.Linked R) cs cs') (i : Nat) :
    widthAt cs'.toArray i = widthAt cs.toArray i := by
  rw [widthAt_eq_getD, widthAt_eq_getD, widths_linked linked]

theorem entries_link {raw : RawPool} {linked : Pool} {cs : List Constant}
    (made : linked = cs.foldl append .empty)
    (each : List.Forall₂ (ConstantOf.Linked fun index ref => raw.positions.lookup index = .ok ref)
      raw.entries.toList cs) :
    linked.entries = cs.toArray ∧ linked.size = raw.entries.size := by
  have entries : linked.entries = cs.toArray := by
    rw [made, entries_append]
    simp [empty]
  refine ⟨entries, ?_⟩
  rw [size, entries, List.size_toArray, ← each.length_eq, Array.length_toList]

/-- Linked entries take the indices that they had. -/
theorem table_link {raw : RawPool} {linked : Pool} (laid : raw.Laid)
    (links : RawPool.link raw.positions .empty raw.entries.toList = .ok linked) :
    none :: spread (widthAt linked.entries) (linked.ordered .preserve) =
      raw.positions.toList := by
  obtain ⟨cs, each, made⟩ := RawPool.link_eq_ok.mp links
  obtain ⟨entries, sized⟩ := entries_link made each
  have widths : widthAt linked.entries = widthAt raw.entries := by
    funext i
    rw [entries, widthAt_linked each]
  rw [laid, widths, ordered, sized]

theorem exists_assign_link {raw : RawPool} {linked : Pool} (laid : raw.Laid)
    (short : raw.positions.size ≤ 65535)
    (links : RawPool.link raw.positions .empty raw.entries.toList = .ok linked) :
    ∃ p, linked.assign .preserve = .ok p := by
  have table : (spread (widthAt linked.entries) (linked.ordered .preserve)).length + 1 =
      raw.positions.size := by
    rw [← Array.length_toList, ← table_link laid links, List.length_cons]
  refine exists_assign .preserve ?_
  omega

theorem holds_of_link {raw : RawPool} {linked p : Pool} (laid : raw.Laid)
    (links : RawPool.link raw.positions .empty raw.entries.toList = .ok linked)
    (assigned : linked.assign .preserve = .ok p) : p.Holds raw := by
  have layout := table_link laid links
  obtain ⟨cs, each, made⟩ := RawPool.link_eq_ok.mp links
  obtain ⟨entries, sized⟩ := entries_link made each
  obtain ⟨n, rfl, numbers⟩ := numbers_of_assign assigned
  have numbered := numbered_of_assign assigned
  have table : n.entryAt = raw.positions := Array.toList_inj.mp (numbers.table.trans layout)
  refine ⟨numbered, ⟨n, rfl, by rw [numbers.order, ordered, sized], table⟩, ?_⟩
  intro i c found
  have inside : i < raw.entries.toList.length := by
    rw [Array.length_toList]
    exact (Array.getElem?_eq_some_iff.mp found).1
  obtain ⟨c', there, one⟩ : ∃ c', cs[i]? = some c' ∧
      ConstantOf.Linked (fun index ref => raw.positions.lookup index = .ok ref) c c' := by
    have pointwise := List.forall₂_iff_get.mp each
    refine ⟨_, List.getElem?_eq_getElem (pointwise.1 ▸ inside), ?_⟩
    have same : raw.entries.toList.get ⟨i, inside⟩ = c :=
      (Array.getElem?_eq_some_iff.mp found).2
    exact same ▸ pointwise.2 i inside (pointwise.1 ▸ inside)
  have got : Pool.get { linked with numbering := some n } i = .ok c' := by
    have here : linked.entries[i]? = some c' := by rw [entries, List.getElem?_toArray, there]
    simp only [Pool.get, here]
  rw [Pool.raw, got]
  refine ConstantOf.mapLinks_eq_ok.mpr (one.flip fun {index ref} known => ?_)
  rw [numbered.indexOf_iff, entryAt_eq_ok rfl, table]
  exact lookup_eq_ok.mp known

theorem write_raw_eq_ok {p : Pool} {ref : ConstantRef} {part : Bytes} :
    (match p.raw ref with
      | .ok c => c.write
      | .error fault => .error fault) = .ok part ↔ ∃ c, p.raw ref = .ok c ∧ c.write = .ok part := by
  cases p.raw ref with
  | error fault => simp
  | ok c => simp

theorem write_eq_ok {p : Pool} {n : Numbering} (numbering : p.numbering = some n)
    {bytes : Bytes} :
    p.write = .ok bytes ↔ ∃ cs parts, List.Forall₂ (fun ref c => p.raw ref = .ok c)
        n.order.toList cs ∧ List.Forall₂ (fun c part => RawConstant.write c = .ok part) cs parts ∧
      bytes = be16 (UInt16.ofNat n.entryAt.size) ++ parts.flatten := by
  simp only [write, numbering]
  constructor
  · intro written
    split at written
    · rename_i parts each
      cases written
      obtain ⟨cs, raws, bodies⟩ := forall₂_exists.mp
        ((mapM_eq_ok.mp each).imp fun ref part => write_raw_eq_ok.mp)
      exact ⟨cs, parts, raws, bodies, rfl⟩
    · cases written
  · rintro ⟨cs, parts, raws, bodies, rfl⟩
    have each := mapM_eq_ok.mpr ((forall₂_exists.mpr ⟨cs, raws, bodies⟩).imp
      fun ref part => write_raw_eq_ok.mpr)
    split
    · rename_i found
      cases found.symm.trans each
      rfl
    · rename_i found
      cases found.symm.trans each

/-- The pool has this entry at an index, when its links are read as indices. -/
def Shows (p : Pool) (index : UInt16) (c : RawConstant) : Prop :=
  ∃ ref, p.entryAt index = .ok ref ∧ p.raw ref = .ok c

/-- Entries link to entries of the pool only. -/
def Closed (p : Pool) : Prop := ∀ c ∈ p.entries, ∀ ref ∈ c.links, ref < p.size

/-- At every index two pools have the same entry, or both have none. -/
def Same (p q : Pool) : Prop :=
  ∀ index, (∃ c, p.Shows index c ∧ q.Shows index c) ∨
    ∀ ref, p.entryAt index ≠ .ok ref ∧ q.entryAt index ≠ .ok ref

variable {p q : Pool} {raw : RawPool}

theorem raw_eq_ok {ref : ConstantRef} {c : RawConstant} :
    p.raw ref = .ok c ↔ ∃ c', p.entries[ref]? = some c' ∧
      ConstantOf.Linked (fun r index => p.indexOf r = .ok index) c' c := by
  simp only [Pool.raw, get]
  cases p.entries[ref]? with
  | none => simp
  | some c' => simp [ConstantOf.mapLinks_eq_ok]

theorem exists_raw (numbered : p.Numbered) (closed : p.Closed) {ref : ConstantRef}
    (inside : ref < p.size) : ∃ c, p.raw ref = .ok c := by
  obtain ⟨c', found⟩ : ∃ c', p.entries[ref]? = some c' := ⟨_, Array.getElem?_eq_getElem inside⟩
  have known : ∀ r ∈ c'.links, ∃ index, p.indexOf r = .ok index := fun r member =>
    numbered.exists_index (closed c' (Array.mem_of_getElem? found) r member)
  obtain ⟨c, linked⟩ := ConstantOf.exists_linked known
  exact ⟨c, raw_eq_ok.mpr ⟨c', found, linked⟩⟩

/-- What an index of a held pool stands for can be read. -/
theorem Holds.exists_raw (holds : p.Holds raw) (laid : raw.Laid) {index : UInt16}
    {ref : ConstantRef} (found : p.entryAt index = .ok ref) : ∃ c, p.raw ref = .ok c := by
  obtain ⟨n, numbering, _, table⟩ := holds.numbering
  rw [entryAt_eq_ok numbering, table] at found
  have member : some ref ∈ raw.positions.toList :=
    Array.mem_toList_iff.mpr (Array.mem_of_getElem? found)
  rw [laid] at member
  rcases List.mem_cons.mp member with none | within
  · cases none
  · have inside : ref < raw.entries.size := List.mem_range.mp (mem_spread.mp within)
    exact ⟨_, holds.entry (Array.getElem?_eq_getElem inside)⟩

/-- A pool that holds the entries of a file writes them in their order. -/
theorem Holds.write_eq_ok (holds : p.Holds raw) {bytes : Bytes} :
    p.write = .ok bytes ↔ ∃ parts,
      List.Forall₂ (fun c part => RawConstant.write c = .ok part) raw.entries.toList parts ∧
      bytes = be16 (UInt16.ofNat raw.positions.size) ++ parts.flatten := by
  obtain ⟨n, numbering, order, table⟩ := holds.numbering
  have raws : n.order.toList.mapM p.raw = .ok raw.entries.toList := by
    refine mapM_eq_ok.mpr (List.forall₂_iff_get.mpr ⟨by simp [order], fun i here there => ?_⟩)
    refine holds.entry ?_
    simp only [order, List.get_eq_getElem, List.getElem_range]
    exact Array.getElem?_eq_getElem (by simpa using there)
  rw [Pool.write_eq_ok numbering, table]
  constructor
  · rintro ⟨cs, parts, each, bodies, rfl⟩
    cases raws.symm.trans (mapM_eq_ok.mpr each)
    exact ⟨parts, bodies, rfl⟩
  · rintro ⟨parts, bodies, rfl⟩
    exact ⟨_, parts, mapM_eq_ok.mp raws, bodies, rfl⟩

/-- A pool that holds canonical entries writes them as they were. -/
theorem Holds.write_canonical (holds : p.Holds raw) (laid : raw.Laid) {entries : List RawEntry}
    {parts : List Bytes} (canonical : ∀ e ∈ entries, e.Canonical)
    (written : List.Forall₂ (fun e part => RawEntry.write e = .ok part) entries parts)
    (constants : List.Forall₂ (fun e c => RawEntry.constant e = .ok c) entries
      raw.entries.toList) :
    p.write =
      .ok (be16 (UInt16.ofNat (1 + (entries.map (·.width)).sum)) ++ parts.flatten) := by
  refine holds.write_eq_ok.mpr ⟨parts, ?_, ?_⟩
  · generalize raw.entries.toList = cs at constants
    induction written generalizing cs with
    | nil =>
        cases constants
        exact .nil
    | cons one _ ih =>
        cases constants with
        | cons said constants =>
            rw [List.forall_mem_cons] at canonical
            obtain ⟨c, same, body⟩ := canonical.1.exists_constant
            cases said.symm.trans same
            exact .cons (body.trans one) (ih canonical.2 _ constants)
  · rw [RawPool.size_of_laid laid, RawEntry.widths_eq constants]

end Pool

namespace RawPool

/-- The pool with these entries. -/
def ofList (cs : List RawConstant) : RawPool :=
  ⟨cs.toArray, (none :: spread (widthAt cs.toArray) (List.range cs.length)).toArray⟩

theorem laid_ofList (cs : List RawConstant) : (ofList cs).Laid := by
  rw [Laid, ofList, List.size_toArray]

end RawPool

namespace Pool

variable {p : Pool} {refs : List ConstantRef} {n : Numbering} {cs : List RawConstant}

theorem map_range_getD (refs : List Nat) :
    (List.range refs.length).map (refs.getD · 0) = refs := by
  refine List.ext_getElem (by simp) fun i _ inside => ?_
  simp [List.getD_eq_getElem?_getD, inside]

/-- The table of the entries in their order, which refers to them by their place in it. -/
theorem Numbers.table_ofList (numbers : p.Numbers refs n)
    (raws : List.Forall₂ (fun ref c => p.raw ref = .ok c) refs cs) :
    n.entryAt.toList = (RawPool.ofList cs).positions.toList.map (Option.map (refs.getD · 0)) := by
  have widths : ∀ i ∈ List.range refs.length,
      widthAt p.entries (refs.getD i 0) = widthAt cs.toArray i := by
    intro i member
    have here := List.mem_range.mp member
    have pointwise := List.forall₂_iff_get.mp raws
    have there : i < cs.length := pointwise.1 ▸ here
    obtain ⟨c', found, linked⟩ := raw_eq_ok.mp (pointwise.2 i here there)
    have same : refs.getD i 0 = refs.get ⟨i, here⟩ := by
      simp [List.getD_eq_getElem?_getD, here]
    have other : cs.toArray[i]? = some (cs.get ⟨i, there⟩) := by
      rw [List.getElem?_toArray]
      exact List.getElem?_eq_getElem there
    rw [same, widthAt_eq found, widthAt_eq other, linked.width]
  rw [numbers.table]
  nth_rewrite 1 [← map_range_getD refs]
  rw [spread_map, spread_congr widths, raws.length_eq]
  rfl

theorem lt_of_ofList {k i : Nat} (found : (RawPool.ofList cs).positions[k]? = some (some i)) :
    i < cs.length := by
  have member : some i ∈ (RawPool.ofList cs).positions.toList :=
    Array.mem_toList_iff.mpr (Array.mem_of_getElem? found)
  rcases List.mem_cons.mp member with none | within
  · cases none
  · exact List.mem_range.mp (mem_spread.mp within)

theorem Numbers.entry_ofList (numbers : p.Numbers refs n)
    (raws : List.Forall₂ (fun ref c => p.raw ref = .ok c) refs cs) {k : Nat} {ref : ConstantRef} :
    n.entryAt[k]? = some (some ref) ↔
      ∃ i, (RawPool.ofList cs).positions[k]? = some (some i) ∧ refs[i]? = some ref := by
  have inside : ∀ {i}, (RawPool.ofList cs).positions[k]? = some (some i) →
      refs[i]? = some (refs.getD i 0) := by
    intro i found
    have bound : i < refs.length := raws.length_eq ▸ lt_of_ofList found
    simp [List.getD_eq_getElem?_getD, bound]
  rw [← Array.getElem?_toList, numbers.table_ofList raws, List.getElem?_map, Array.getElem?_toList]
  constructor
  · intro there
    obtain ⟨o, found, same⟩ := Option.map_eq_some_iff.mp there
    obtain ⟨i, rfl, rfl⟩ := Option.map_eq_some_iff.mp same
    exact ⟨i, found, inside found⟩
  · rintro ⟨i, found, same⟩
    cases (inside found).symm.trans same
    rw [found]
    rfl

/-- Links as indices lead back to entries. -/
theorem exists_link (numbered : p.Numbered) (numbering : p.numbering = some n)
    (numbers : p.Numbers refs n)
    (raws : List.Forall₂ (fun ref c => p.raw ref = .ok c) refs cs) :
    ∃ linked, RawPool.link (RawPool.ofList cs).positions .empty cs = .ok linked := by
  have each : ∀ c ∈ cs, ∃ c', c.mapLinks (RawPool.ofList cs).positions.lookup = .ok c' := by
    intro c member
    obtain ⟨ref, _, read⟩ := exists_of_forall₂ raws.flip member
    obtain ⟨c', _, linked⟩ := raw_eq_ok.mp read
    have known : ∀ index ∈ c.links, ∃ j, (RawPool.ofList cs).positions.lookup index = .ok j := by
      intro index link
      obtain ⟨r, _, indexed⟩ := linked.mem link
      have entry := (entryAt_eq_ok numbering).mp (numbered.indexOf_iff.mp indexed)
      obtain ⟨j, found, _⟩ := (numbers.entry_ofList raws).mp entry
      exact ⟨j, lookup_eq_ok.mpr found⟩
    obtain ⟨back, linked⟩ := ConstantOf.exists_linked known
    exact ⟨back, ConstantOf.mapLinks_eq_ok.mpr linked⟩
  obtain ⟨cs', mapped⟩ := exists_mapM_eq_ok each
  have linked := (mapM_eq_ok.mp mapped).imp fun _ _ => ConstantOf.mapLinks_eq_ok.mp
  exact ⟨_, RawPool.link_eq_ok.mpr ⟨cs', linked, rfl⟩⟩

theorem Numbers.same_ofList {q : Pool} (numbering : p.numbering = some n)
    (numbers : p.Numbers refs n)
    (raws : List.Forall₂ (fun ref c => p.raw ref = .ok c) refs cs)
    (holds : q.Holds (RawPool.ofList cs)) : p.Same q := by
  obtain ⟨n', numbering', _, table⟩ := holds.numbering
  have entry : ∀ {index i}, q.entryAt index = .ok i ↔
      (RawPool.ofList cs).positions[index.toNat]? = some (some i) := by
    intro index i
    rw [entryAt_eq_ok numbering', table]
  have both : ∀ {i ref}, refs[i]? = some ref → ∃ c, p.raw ref = .ok c ∧ q.raw i = .ok c := by
    intro i ref here
    obtain ⟨bound, rfl⟩ := List.getElem?_eq_some_iff.mp here
    have pointwise := List.forall₂_iff_get.mp raws
    have there : i < cs.length := pointwise.1 ▸ bound
    refine ⟨_, pointwise.2 i bound there, holds.entry ?_⟩
    rw [RawPool.ofList, List.getElem?_toArray]
    exact List.getElem?_eq_getElem there
  have places : ∀ {index ref}, p.entryAt index = .ok ref ↔
      ∃ i, q.entryAt index = .ok i ∧ refs[i]? = some ref := by
    intro index ref
    simp only [entryAt_eq_ok numbering, numbers.entry_ofList raws, entry]
  intro index
  by_cases found : ∃ i, q.entryAt index = .ok i
  · obtain ⟨i, there⟩ := found
    obtain ⟨ref, here⟩ : ∃ ref, refs[i]? = some ref :=
      ⟨_, List.getElem?_eq_getElem (raws.length_eq ▸ lt_of_ofList (entry.mp there))⟩
    obtain ⟨c, one, other⟩ := both here
    exact .inl ⟨c, ⟨ref, places.mpr ⟨i, there, here⟩, one⟩, i, there, other⟩
  · refine .inr fun ref => ⟨fun there => ?_, fun there => found ⟨ref, there⟩⟩
    obtain ⟨i, other, _⟩ := places.mp there
    exact found ⟨i, other⟩

/-- A pool that is written reads back. -/
theorem Numbered.exists_read_write (numbered : p.Numbered) (closed : p.Closed)
    (texts : ∀ s, .utf8 s ∈ p.entries → (ModifiedUtf8.encode s).length ≤ 65535) :
    ∃ bytes q, p.write = .ok bytes ∧ p.Same q ∧ Spelled bytes q := by
  have keep := numbered
  obtain ⟨n, refs, numbering, numbers, perm⟩ := keep
  have inside : ∀ ref ∈ refs, ref < p.size := fun ref member =>
    List.mem_range.mp (perm.mem_iff.mp member)
  obtain ⟨cs, found⟩ := exists_mapM_eq_ok fun ref member =>
    exists_raw numbered closed (inside ref member)
  have raws := mapM_eq_ok.mp found
  have writable : ∀ c ∈ cs, ∃ part, RawConstant.write c = .ok part := by
    intro c member
    obtain ⟨ref, _, read⟩ := exists_of_forall₂ raws.flip member
    obtain ⟨c', entry, linked⟩ := raw_eq_ok.mp read
    refine RawConstant.exists_write fun s text => texts s ?_
    cases text
    cases linked
    exact Array.mem_of_getElem? entry
  obtain ⟨parts, written⟩ := exists_mapM_eq_ok writable
  have bodies := mapM_eq_ok.mp written
  obtain ⟨linked, links⟩ := exists_link numbered numbering numbers raws
  have size : n.entryAt.size = (RawPool.ofList cs).positions.size := by
    rw [← Array.length_toList, numbers.table_ofList raws, List.length_map, Array.length_toList]
  have short : (RawPool.ofList cs).positions.size ≤ 65535 := size ▸ numbers.short
  obtain ⟨q, assigned⟩ := exists_assign_link (RawPool.laid_ofList cs) short links
  have holds := holds_of_link (RawPool.laid_ofList cs) links assigned
  have spelled : List.Forall₂ RawConstant.Spelled parts cs :=
    bodies.flip.imp fun part c body => ⟨.plain c, body, rfl⟩
  refine ⟨_, q, (write_eq_ok numbering).mpr ⟨cs, parts, ?_, bodies, rfl⟩,
    numbers.same_ofList numbering raws holds,
    RawPool.ofList cs, linked, ⟨RawPool.laid_ofList cs, short, parts, spelled, ?_⟩, links, assigned⟩
  · rwa [numbers.order]
  · rw [size]

/-- An entry that cannot be written keeps the pool from being written. -/
theorem Numbered.write_error (numbered : p.Numbered) {s : String} (member : .utf8 s ∈ p.entries)
    (long : 65535 < (ModifiedUtf8.encode s).length) : ∃ fault, p.write = .error fault := by
  cases written : p.write with
  | error fault => exact ⟨fault, rfl⟩
  | ok bytes =>
      obtain ⟨n, refs, numbering, numbers, perm⟩ := numbered
      obtain ⟨cs, parts, raws, bodies, _⟩ := (write_eq_ok numbering).mp written
      rw [numbers.order] at raws
      obtain ⟨ref, inside, entry⟩ := Array.getElem_of_mem member
      have listed : ref ∈ refs := perm.mem_iff.mpr (List.mem_range.mpr inside)
      obtain ⟨part, _, c, read, body⟩ := exists_of_forall₂ (forall₂_exists.mpr ⟨cs, raws, bodies⟩)
        listed
      obtain ⟨c', found, linked⟩ := raw_eq_ok.mp read
      cases found.symm.trans (Array.getElem?_eq_some_iff.mpr ⟨inside, entry⟩)
      cases linked
      simp only [RawConstant.write, if_neg (Nat.not_le.mpr long)] at body
      cases body

end Pool

end JvmAssembly
