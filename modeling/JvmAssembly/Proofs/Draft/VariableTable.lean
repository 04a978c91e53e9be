import Mathlib
import JvmAssembly.Proofs.Draft.Stability

/-!
The table of local variables. Its rows are made from runs of positions at which a local is live, as
they were before layout put positions in, and the offsets are those of after. An instruction that
was there before has its offset in a row of the local exactly if the local is live on entry to it,
and the rows of one local lie in the code and apart from each other.
-/
namespace JvmAssembly

/-- Items that give nothing are passed over. -/
theorem filterMap_of_mapM {α β : Type} {make : α → Except Fault (Option β)} {items : List α}
    {results : List (Option β)} (made : items.mapM make = .ok results) :
    results.filterMap (fun result => result) = items.filterMap fun a => (make a).toOption.join := by
  rw [mapM_eq_ok] at made
  induction made with
  | nil => rfl
  | @cons a result items results first later ih =>
      have here : (make a).toOption.join = result := by rw [first]; rfl
      rw [List.filterMap_cons, List.filterMap_cons, here, ih]

namespace Draft

/-- The rows of a local: they name it, lie in the code apart from each other, and hold the offset of
an instruction exactly if the local is live on entry to it. -/
structure RowsOf (pool : Pool) (d : Draft) (offsets : Offsets) (size v : Nat) (name : String)
    (type : FieldType) (slot : UInt16) (rows : List VariableRow) : Prop where
  names : ∀ row ∈ rows, pool.indexOfText name = .ok row.nameIndex ∧
    pool.indexOfText type.render = .ok row.descriptorIndex ∧ row.slot = slot
  inside : ∀ row ∈ rows, row.startPc.toNat + row.length.toNat ≤ size
  apart : rows.Pairwise fun r s => r.startPc.toNat + r.length.toNat < s.startPc.toNat
  covers : ∀ i n offset, d.order.toList[i]? = some n → (d.instructionAt n).isLabel = false →
    offsets.of? n = some offset →
    ((∃ row ∈ rows, row.startPc.toNat ≤ offset ∧ offset < row.startPc.toNat + row.length.toNat) ↔
      d.LiveIn v i)

variable {d d' : Draft} {pool : Pool} {l : Layout}

/-- The row of a local over some bytes, with the indices of its name and type. -/
def rowAt (slot nameIndex descriptorIndex : UInt16) (bytes : Nat × Nat) : VariableRow :=
  ⟨.ofNat bytes.1, .ofNat bytes.2 - .ofNat bytes.1, nameIndex, descriptorIndex, slot⟩

theorem toNat_rowAt {bytes : Nat × Nat} (slot nameIndex descriptorIndex : UInt16)
    (sized : bytes.1 < bytes.2) (short : bytes.2 ≤ 65535) :
    (rowAt slot nameIndex descriptorIndex bytes).startPc.toNat = bytes.1 ∧
      (rowAt slot nameIndex descriptorIndex bytes).startPc.toNat +
        (rowAt slot nameIndex descriptorIndex bytes).length.toNat = bytes.2 := by
  obtain ⟨start, length⟩ := toNat_stretch sized short
  rw [rowAt, start, length]
  omega

theorem rowOf_eq {v : Nat} {name : String} {type : FieldType} {fixed : Option UInt16}
    {slot : UInt16} (found : d.locals[v]? = some ⟨some name, type, fixed, some slot⟩)
    {s : UInt16 × UInt16} {row : Option VariableRow} (made : rowOf pool d (v, s) = .ok row) :
    ∃ nameIndex descriptorIndex, pool.indexOfText name = .ok nameIndex ∧
      pool.indexOfText type.render = .ok descriptorIndex ∧
      ∀ r : Nat × Nat, rowOf pool d (v, .ofNat r.1, .ofNat r.2) =
        .ok (some (rowAt slot nameIndex descriptorIndex r)) := by
  unfold rowOf at made ⊢
  dsimp only at made ⊢
  rw [found] at made ⊢
  obtain ⟨nameIndex, named, rest⟩ := bind_eq_ok.mp made
  obtain ⟨descriptorIndex, typed, -⟩ := bind_eq_ok.mp rest
  refine ⟨nameIndex, descriptorIndex, named, typed, fun r => ?_⟩
  exact bind_eq_ok.mpr ⟨nameIndex, named, bind_eq_ok.mpr ⟨descriptorIndex, typed, rfl⟩⟩

/-- All runs of a local have rows with the same indices. -/
theorem exists_rowAt {v : Nat} {name : String} {type : FieldType} {fixed : Option UInt16}
    {slot : UInt16} (found : d.locals[v]? = some ⟨some name, type, fixed, some slot⟩)
    {runs : List (Nat × Nat)}
    (made : ∀ r ∈ runs, ∃ row, rowOf pool d (v, .ofNat r.1, .ofNat r.2) = .ok row) :
    ∃ nameIndex descriptorIndex,
      (runs.filterMap fun r => (rowOf pool d (v, .ofNat r.1, .ofNat r.2)).toOption.join) =
        runs.map (rowAt slot nameIndex descriptorIndex) ∧
      (runs ≠ [] → pool.indexOfText name = .ok nameIndex ∧
        pool.indexOfText type.render = .ok descriptorIndex) := by
  -- Without runs the indices are not looked up, and may be missing.
  cases runs with
  | nil => exact ⟨0, 0, rfl, fun some => absurd rfl some⟩
  | cons r runs =>
      obtain ⟨row, first⟩ := made r List.mem_cons_self
      obtain ⟨nameIndex, descriptorIndex, named, typed, each⟩ := rowOf_eq found first
      refine ⟨nameIndex, descriptorIndex, ?_, fun _ => ⟨named, typed⟩⟩
      rw [← List.filterMap_eq_map]
      congr 1
      funext r
      rw [each r]
      rfl

/-- The bytes that an instruction of before starts with belong to a run of a local exactly if the
local is live on entry to the instruction. -/
theorem Stretches.covered_iff {ready : Draft} {up down : Nat → Nat} {v i : Nat} {x : Instruction}
    (stretches : Stretches ready d' up down) (settled : Layout.Settled pool d' l)
    (here : ready.at? i = some x) (solid : x.isLabel = false) :
    (∃ k, ready.LiveIn v k ∧
        l.offsetAt d'.order.toList (up k) ≤ l.offsetAt d'.order.toList (up i) ∧
        l.offsetAt d'.order.toList (up i) < l.offsetAt d'.order.toList (up (k + 1))) ↔
      ready.LiveIn v i := by
  obtain ⟨x', there, solid'⟩ := stretches.solid i x here solid
  -- The instruction has bytes, so its offset tells it from all that comes after it.
  have before := fun j => settled.offsetAt_lt_iff (j := j) there solid'
  constructor
  · rintro ⟨k, live, low, high⟩
    rw [← Nat.not_lt, before, Nat.not_lt, stretches.up_le_up] at low
    rw [before, ← Nat.not_le, stretches.up_le_up, Nat.not_le, Nat.lt_succ_iff] at high
    rwa [Nat.le_antisymm high low]
  · intro live
    refine ⟨i, live, Nat.le_refl _, (before _).mpr ?_⟩
    exact stretches.up_succ i

/-- The runs of bytes at which a local is live. -/
def runsOf (l : Layout) (ready : Draft) (f : Flow) (v : Nat) : List (Nat × Nat) :=
  bytesOf l ready ((Liveness.ofFlow f ready.locals.size).entryOf v).ranges

namespace Finished

variable {f : Flow} {frame : UInt16} {ready : Draft} {up down : Nat → Nat} {c : Code}
  (finished : Finished pool d f frame ready up down d' l c)

include finished

theorem isLabel_eq (n : NodeId) :
    (ready.instructionAt n).isLabel = (d.instructionAt n).isLabel := by
  rcases finished.stores n with same | ⟨i, marked⟩
  · rw [same]
  · rw [marked]
    cases d.instructionAt n <;> rfl

theorem code_eq : c.code = l.code := by
  obtain ⟨depth, assembled⟩ := finished.assembled
  obtain ⟨handlers, rows, -, -, rfl⟩ := assemble_eq_ok.mp assembled
  rfl

/-- The offset of an instruction of before is in a run of a local exactly if the local is live on
entry to the instruction. -/
theorem covered_iff {v i offset : Nat} {n : NodeId} (valid : d.Valid)
    (inside : v < ready.locals.size) (stored : d.order.toList[i]? = some n)
    (solid : (d.instructionAt n).isLabel = false) (known : l.offsets.of? n = some offset) :
    (∃ r ∈ runsOf l ready f v, r.1 ≤ offset ∧ offset < r.2) ↔ d.LiveIn v i := by
  have prepared := finished.prepared
  have stretches := finished.stretches
  have settled := finished.settled
  have runs := stretches.runs_before settled prepared.valid prepared.flow_ready inside
  have stored' : ready.order.toList[i]? = some n := by rw [prepared.order, stored]
  have here : ready.at? i = some (ready.instructionAt n) := by rw [at?, stored']; rfl
  cases (settled.of?_eq ((stretches.order i).trans stored')).symm.trans known
  rw [← liveIn_congr valid prepared.valid prepared.flow prepared.flow_ready prepared.moved.size
      (prepared.moved.size ▸ inside),
    ← stretches.covered_iff settled here ((finished.isLabel_eq n).trans solid), runs.cover]
  rfl

theorem rowsOf {v : Nat} {name : String} {type : FieldType} {fixed : Option UInt16}
    {slot : UInt16} (valid : d.Valid)
    (found : d'.locals[v]? = some ⟨some name, type, fixed, some slot⟩)
    (made : ∀ r ∈ runsOf l ready f v, ∃ row, rowOf pool d' (v, .ofNat r.1, .ofNat r.2) = .ok row) :
    RowsOf pool d l.offsets l.code.length v name type slot ((runsOf l ready f v).filterMap
      fun r => (rowOf pool d' (v, .ofNat r.1, .ofNat r.2)).toOption.join) := by
  have inside : v < ready.locals.size :=
    finished.stretches.locals ▸ (Array.getElem?_eq_some_iff.mp found).1
  have bounds := fun r (run : r ∈ runsOf l ready f v) =>
    bounds_bytesOf (finished.stretches.offsetAt_le finished.settled) run
  obtain ⟨nameIndex, descriptorIndex, rows, known⟩ := exists_rowAt found made
  have words := fun r (run : r ∈ runsOf l ready f v) =>
    toNat_rowAt slot nameIndex descriptorIndex (bounds r run).1
      (Nat.le_trans (bounds r run).2 finished.settled.short)
  rw [rows]
  refine ⟨?_, ?_, ?_, ?_⟩
  · intro row member
    obtain ⟨r, run, rfl⟩ := List.mem_map.mp member
    obtain ⟨named, typed⟩ := known (List.ne_nil_of_mem run)
    exact ⟨named, typed, rfl⟩
  · intro row member
    obtain ⟨r, run, rfl⟩ := List.mem_map.mp member
    rw [(words r run).2]
    exact (bounds r run).2
  · have runs := finished.stretches.runs_before finished.settled finished.prepared.valid
      finished.prepared.flow_ready inside
    rw [List.pairwise_map]
    refine runs.apart.imp_of_mem fun first second gap => ?_
    rw [(words _ first).2, (words _ second).1]
    exact gap
  · intro i n offset stored solid at_n
    rw [← finished.covered_iff valid inside stored solid at_n]
    constructor
    · rintro ⟨row, member, low, high⟩
      obtain ⟨r, run, rfl⟩ := List.mem_map.mp member
      rw [(words r run).1] at low
      rw [(words r run).2] at high
      exact ⟨r, run, low, high⟩
    · rintro ⟨r, run, low, high⟩
      refine ⟨_, List.mem_map_of_mem run, ?_⟩
      rw [(words r run).2, (words r run).1]
      exact ⟨low, high⟩

/-- The table is made of the rows of one local after the other. -/
theorem locals_eq (tracked : d.tracksLocals = true) :
    (∀ v, d'.isListed v = true → ∀ r ∈ runsOf l ready f v,
        ∃ row, rowOf pool d' (v, .ofNat r.1, .ofNat r.2) = .ok row) ∧
      c.locals = (List.range d.locals.size).flatMap fun v =>
        if d'.isListed v then (runsOf l ready f v).filterMap
          fun r => (rowOf pool d' (v, .ofNat r.1, .ofNat r.2)).toOption.join
        else [] := by
  have stretches := finished.stretches
  obtain ⟨depth, assembled⟩ := finished.assembled
  rw [if_pos tracked, ← finished.prepared.moved.size] at assembled
  obtain ⟨handlers, rows, -, made, same⟩ := assemble_eq_ok.mp assembled
  rw [spans_liveRanges (stretches.offsetAt_le finished.settled) finished.settled.short] at made
  constructor
  · intro v listed r run
    have inside : v < ready.locals.size := stretches.locals ▸ lt_of_isListed listed
    rw [stretches.isListed_eq] at listed
    obtain ⟨row, -, found⟩ := exists_of_forall₂ (mapM_eq_ok.mp made)
      (x := (v, .ofNat r.1, .ofNat r.2)) (List.mem_flatMap.mpr ⟨v, List.mem_range.mpr inside, by
        rw [if_pos listed]
        exact List.mem_map.mpr ⟨r, run, rfl⟩⟩)
    exact ⟨row, found⟩
  · rw [same]
    dsimp only
    rw [filterMap_of_mapM made, List.filterMap_flatMap, ← finished.prepared.moved.size]
    congr 1
    funext v
    rw [stretches.isListed_eq]
    split
    · rw [List.filterMap_map]
      rfl
    · rfl

end Finished

/-- The table of local variables of a resolved draft, if it is to have one, follows liveness: it is
made of the rows of each local that has a name and a slot. -/
theorem resolve_locals {c : Code} (reachable : d.Reachable) (tracked : d.tracksLocals = true)
    (resolved : d.resolve pool = (.ok c, d')) :
    ∃ (offsets : Offsets) (rows : Nat → List VariableRow),
      Written d' pool offsets 0 d'.order.toList c.code ∧
      c.locals = (List.range d.locals.size).flatMap rows ∧
      (∀ v, d'.isListed v = false → rows v = []) ∧
      ∀ v name type fixed slot, d'.locals[v]? = some ⟨some name, type, fixed, some slot⟩ →
        RowsOf pool d offsets c.code.length v name type slot (rows v) := by
  obtain ⟨f, frame, ready, up, down, l, finished⟩ := exists_finished reachable.valid resolved
  obtain ⟨made, table⟩ := finished.locals_eq tracked
  rw [finished.code_eq]
  refine ⟨l.offsets, _, finished.settled.written, table, fun v unlisted => ?_, ?_⟩
  · rw [if_neg (by rw [unlisted]; exact Bool.false_ne_true)]
  · intro v name type fixed slot found
    have listed : d'.isListed v = true := by
      rw [isListed, found]
    rw [if_pos listed]
    exact finished.rowsOf reachable.valid found (made v listed)

theorem resolve_locals_straying : straying.Reachable ∧ straying.tracksLocals = true ∧
    ∃ c, straying.resolve names = (.ok c, strayed) ∧
      strayed.locals[0]? = some ⟨some "x", .int, some 0, some 0⟩ ∧
      ∃ (offsets : Offsets) (rows : Nat → List VariableRow),
        Written strayed names offsets 0 strayed.order.toList c.code ∧
        c.locals = (List.range straying.locals.size).flatMap rows ∧
        RowsOf names straying offsets c.code.length 0 "x" .int 0 (rows 0) := by
  obtain ⟨c, resolved, -⟩ := resolve_straying
  obtain ⟨offsets, rows, written, table, -, each⟩ := resolve_locals reachable_straying rfl resolved
  exact ⟨reachable_straying, rfl, c, resolved, rfl, offsets, rows, written, table,
    each 0 "x" .int (some 0) 0 rfl⟩

end Draft

end JvmAssembly
