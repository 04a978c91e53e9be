import Mathlib
import JvmAssembly.Draft.Resolve
import JvmAssembly.Proofs.Draft.Liveness
import JvmAssembly.Proofs.Draft.Relayout
import JvmAssembly.Proofs.Runs

/-!
Rows of local variables as stretches of code. The rows of a local cover the bytes at which it is
live and are the maximal runs of these, so two drafts over one layout have the same rows if the
locals are live at the same bytes.
-/
namespace JvmAssembly

/-- Only a label takes no bytes. -/
theorem Draft.encode_ne_nil {d : Draft} {pool : Pool} {offsets : Offsets} {offset : Nat}
    {x : Instruction} {code : Bytes} {known : Bool} (solid : x.isLabel = false)
    (h : d.encode pool offsets offset x = .ok (.bytes code known)) : code ≠ [] := by
  have one : ∀ {a : Except Fault UInt16} {make : UInt16 → Bytes}, (∀ w, make w ≠ []) →
      (do return Encoding.fixed (make (← a))) = Except.ok (Encoding.bytes code known) →
      code ≠ [] := by
    intro a make nonempty made
    obtain ⟨w, -, last⟩ := bind_eq_ok.mp made
    cases last
    exact nonempty w
  have access : ∀ slot op short, Encoding.localAccess slot op short ≠ [] := by
    intro slot op short
    unfold Encoding.localAccess
    split
    · exact List.cons_ne_nil _ _
    · split <;> exact List.cons_ne_nil _ _
  cases x with
  | label => cases solid
  | simple op =>
      cases h
      exact List.cons_ne_nil _ _
  | immediate op operand =>
      unfold encode at h
      dsimp only at h
      split at h <;> cases h <;> exact List.cons_ne_nil _ _
  | constant op entry adjustment =>
      refine one (fun w => ?_) h
      unfold Encoding.constant
      split
      · split <;> exact List.cons_ne_nil _ _
      · exact List.cons_ne_nil _ _
  | invoke op entry adjustment slots => exact one (fun w => List.cons_ne_nil _ _) h
  | multiNewArray entry dimensions => exact one (fun w => List.cons_ne_nil _ _) h
  | load source kind => exact one (fun w => access w _ _) h
  | store target kind discard =>
      cases discard with
      | true =>
          cases h
          exact List.cons_ne_nil _ _
      | false => exact one (fun w => access w _ _) h
  | increment target amount =>
      refine one (fun w => ?_) h
      unfold Encoding.increment
      split <;> exact List.cons_ne_nil _ _
  | branch op target =>
      rintro rfl
      have length := Encoding.length_branch (Except.ok.inj h)
      split at length <;> cases length
  | switch default cases table =>
      rintro rfl
      have length := Encoding.length_switch (Except.ok.inj h)
      simp only [List.length_nil] at length
      omega
  | ret source =>
      refine one (fun w => ?_) h
      unfold Encoding.ret
      split <;> exact List.cons_ne_nil _ _

theorem Written.offsets_le {d : Draft} {pool : Pool} {offsets : Offsets} {start : Nat}
    {nodes : List NodeId} {code : Bytes} (written : Written d pool offsets start nodes code) :
    ((nodes[0]?).bind offsets.of?).getD (start + code.length) = start ∧
      ∀ i n, nodes[i]? = some n →
        ((nodes[i]?).bind offsets.of?).getD (start + code.length) ≤
            ((nodes[i + 1]?).bind offsets.of?).getD (start + code.length) ∧
          ((d.instructionAt n).isLabel = false ↔
            ((nodes[i]?).bind offsets.of?).getD (start + code.length) <
              ((nodes[i + 1]?).bind offsets.of?).getD (start + code.length)) := by
  induction written with
  | nil offset => exact ⟨rfl, nofun⟩
  | @cons offset node rest code more here bytes later ih =>
      rw [Nat.add_assoc, ← List.length_append] at ih
      refine ⟨?_, ?_⟩
      · rw [List.getElem?_cons_zero, Option.bind_some, here, Option.getD_some]
      · intro i n found
        cases i with
        | zero =>
            cases found
            rw [List.getElem?_cons_zero, Option.bind_some, here, Option.getD_some,
              List.getElem?_cons_succ, ih.1]
            refine ⟨Nat.le_add_right _ _, fun solid => ?_, fun longer => ?_⟩
            · have size := List.length_pos_of_ne_nil (Draft.encode_ne_nil solid bytes)
              omega
            · cases here : d.instructionAt node with
              | label =>
                  rw [here] at bytes
                  cases bytes
                  exact (Nat.lt_irrefl _ longer).elim
              | _ => rfl
        | succ i => exact ih.2 i n found

namespace Layout

/-- Offset of a position in a sequence of nodes; the end of the code is at the end of it. -/
def offsetAt (l : Layout) (nodes : List NodeId) (i : Nat) : Nat :=
  ((nodes[i]?).bind l.offsets.of?).getD l.code.length

variable {pool : Pool} {d : Draft} {l : Layout}

theorem offsetAt_end (l : Layout) {nodes : List NodeId} {i : Nat} (past : nodes.length ≤ i) :
    l.offsetAt nodes i = l.code.length := by
  rw [offsetAt, List.getElem?_eq_none past]
  rfl

namespace Settled

variable (settled : Settled pool d l)

include settled

theorem offsetAt_le_succ (i : Nat) :
    l.offsetAt d.order.toList i ≤ l.offsetAt d.order.toList (i + 1) := by
  by_cases inside : i < d.order.toList.length
  · have step := (settled.written.offsets_le.2 i _ (List.getElem?_eq_getElem inside)).1
    rwa [Nat.zero_add] at step
  · rw [l.offsetAt_end (by omega), l.offsetAt_end (by omega)]

theorem monotone_offsetAt : Monotone (l.offsetAt d.order.toList) :=
  monotone_nat_of_le_succ settled.offsetAt_le_succ

/-- A label takes no bytes, and anything else does. -/
theorem offsetAt_lt_succ {i : Nat} {x : Instruction} (here : d.at? i = some x) :
    l.offsetAt d.order.toList i < l.offsetAt d.order.toList (i + 1) ↔ x.isLabel = false := by
  obtain ⟨n, stored, rfl⟩ := Option.map_eq_some_iff.mp here
  have step := (settled.written.offsets_le.2 i n stored).2
  rw [Nat.zero_add] at step
  exact step.symm

/-- Something with bytes comes before exactly what has a greater offset. -/
theorem offsetAt_lt_iff {i j : Nat} {x : Instruction} (here : d.at? i = some x)
    (solid : x.isLabel = false) :
    l.offsetAt d.order.toList i < l.offsetAt d.order.toList j ↔ i < j := by
  constructor
  · intro less
    by_contra past
    exact Nat.not_le.mpr less (settled.monotone_offsetAt (Nat.le_of_not_lt past))
  · intro less
    exact Nat.lt_of_lt_of_le ((settled.offsetAt_lt_succ here).mpr solid)
      (settled.monotone_offsetAt less)

theorem of?_eq {n : NodeId} {i : Nat} (stored : d.order.toList[i]? = some n) :
    l.offsets.of? n = some (l.offsetAt d.order.toList i) := by
  obtain ⟨before, -, -, -, found, -⟩ := settled.written.mem (List.mem_of_getElem? stored)
  rw [offsetAt, stored, Option.bind_some, found, Option.getD_some]

theorem offsetAt_le (i : Nat) : l.offsetAt d.order.toList i ≤ l.code.length := by
  have last := settled.monotone_offsetAt (Nat.le_add_right i d.order.toList.length)
  rwa [l.offsetAt_end (Nat.le_add_left _ _)] at last

end Settled

theorem offsetOf_eq (l : Layout) (nodes : List NodeId) (i : Nat) :
    l.offsetOf nodes[i]? = UInt16.ofNat (l.offsetAt nodes i) := by
  unfold offsetOf offsetAt
  cases (nodes[i]?).bind l.offsets.of? <;> rfl

end Layout

namespace Draft

/-- The local and the offsets of a live range, unless it has no bytes. -/
def LiveRange.span? (l : Layout) (range : LiveRange) : Option (Nat × UInt16 × UInt16) :=
  if l.offsetOf (some range.start) ≥ l.offsetOf range.stop then none
  else some (range.which, l.offsetOf (some range.start), l.offsetOf range.stop)

/-- The row of a local over a stretch of code, if the local has a name and a slot. -/
def rowOf (pool : Pool) (d : Draft) (span : Nat × UInt16 × UInt16) :
    Except Fault (Option VariableRow) := do
  match d.locals[span.1]? with
  | some ⟨some name, type, _, some slot⟩ =>
    let nameIndex ← pool.indexOfText name
    let descriptorIndex ← pool.indexOfText type.render
    return some ⟨span.2.1, span.2.2 - span.2.1, nameIndex, descriptorIndex, slot⟩
  | _ => return none

variable {d : Draft} {pool : Pool} {l : Layout} {depth frame : UInt16}

theorem variableRow_eq (range : LiveRange) :
    variableRow pool l d range = (range.span? l).elim (.ok none) (rowOf pool d) := by
  unfold variableRow LiveRange.span?
  dsimp only
  split <;> rfl

theorem filterMap_cons_congr {rows rows' : List (Option VariableRow)} (row : Option VariableRow)
    (same : rows'.filterMap (fun row => row) = rows.filterMap fun row => row) :
    (row :: rows').filterMap (fun row => row) = (row :: rows).filterMap fun row => row := by
  cases row with
  | none => exact same
  | some row => exact congrArg (row :: ·) same

/-- Rows are made of the ranges that have bytes. -/
theorem mapM_variableRow {ranges : List LiveRange} {out : List VariableRow} :
    (∃ rows, ranges.mapM (variableRow pool l d) = .ok rows ∧
        rows.filterMap (fun row => row) = out) ↔
      ∃ rows, (ranges.filterMap (·.span? l)).mapM (rowOf pool d) = .ok rows ∧
        rows.filterMap (fun row => row) = out := by
  simp only [mapM_eq_ok]
  induction ranges generalizing out with
  | nil => simp
  | cons range ranges ih =>
      cases span : range.span? l with
      | none =>
          have same : variableRow pool l d range = .ok none := by rw [variableRow_eq, span]; rfl
          rw [List.filterMap_cons_none span, ← ih]
          constructor
          · rintro ⟨rows, each, rfl⟩
            obtain ⟨row, rest, first, later, rfl⟩ := List.forall₂_cons_left_iff.mp each
            cases same.symm.trans first
            exact ⟨rest, later, rfl⟩
          · rintro ⟨rows, rest, rfl⟩
            exact ⟨none :: rows, .cons same rest, rfl⟩
      | some s =>
          have same : variableRow pool l d range = rowOf pool d s := by
            rw [variableRow_eq, span]
            rfl
          rw [List.filterMap_cons_some span]
          constructor
          · rintro ⟨rows, each, rfl⟩
            obtain ⟨row, rest, first, later, rfl⟩ := List.forall₂_cons_left_iff.mp each
            obtain ⟨rows', later', equal⟩ := ih.mp ⟨rest, later, rfl⟩
            exact ⟨row :: rows', .cons (same ▸ first) later', filterMap_cons_congr row equal⟩
          · rintro ⟨rows, each, rfl⟩
            obtain ⟨row, rest, first, later, rfl⟩ := List.forall₂_cons_left_iff.mp each
            obtain ⟨rows', later', equal⟩ := ih.mpr ⟨rest, later, rfl⟩
            exact ⟨row :: rows', .cons (same ▸ first) later', filterMap_cons_congr row equal⟩

/-- What is put together from a layout. -/
theorem assemble_eq_ok {ranges : List LiveRange} {c : Code} :
    d.assemble pool l depth frame ranges = .ok c ↔ ∃ handlers rows,
      d.handlers.toList.mapM (handlerRow pool l) = .ok handlers ∧
      (ranges.filterMap (·.span? l)).mapM (rowOf pool d) = .ok rows ∧
      c = ⟨depth, frame, l.code, handlers.filterMap fun row => row, d.lines.toList.map (lineRow l),
        rows.filterMap fun row => row⟩ := by
  unfold assemble
  constructor
  · intro h
    obtain ⟨handlers, guarded, rest⟩ := bind_eq_ok.mp h
    obtain ⟨rows, named, last⟩ := bind_eq_ok.mp rest
    cases last
    obtain ⟨rows', named', same⟩ := mapM_variableRow.mp ⟨rows, named, rfl⟩
    exact ⟨handlers, rows', guarded, named', by rw [same]⟩
  · rintro ⟨handlers, rows, guarded, named, rfl⟩
    obtain ⟨rows', named', same⟩ := mapM_variableRow.mpr ⟨rows, named, rfl⟩
    exact bind_eq_ok.mpr ⟨handlers, guarded, bind_eq_ok.mpr ⟨rows', named', by rw [same]; rfl⟩⟩

/-- Whether a local has rows does not depend on their offsets. -/
theorem exists_rowOf {s t : Nat × UInt16 × UInt16} (same : s.1 = t.1) {row : Option VariableRow}
    (h : rowOf pool d t = .ok row) : ∃ row', rowOf pool d s = .ok row' := by
  unfold rowOf at h ⊢
  rw [same]
  split at h
  · obtain ⟨name, named, rest⟩ := bind_eq_ok.mp h
    obtain ⟨descriptor, typed, last⟩ := bind_eq_ok.mp rest
    exact ⟨_, bind_eq_ok.mpr ⟨name, named, bind_eq_ok.mpr ⟨descriptor, typed, rfl⟩⟩⟩
  · exact ⟨none, rfl⟩

/-- Whether a local goes to the table. -/
def isListed (d : Draft) (v : Nat) : Bool :=
  match d.locals[v]? with
  | some ⟨some _, _, _, some _⟩ => true
  | _ => false

theorem lt_of_isListed {v : Nat} (listed : d.isListed v = true) : v < d.locals.size := by
  unfold isListed at listed
  split at listed
  · rename_i found
    exact (Array.getElem?_eq_some_iff.mp found).1
  · cases listed

theorem length_rowOf {s : Nat × UInt16 × UInt16} {row : Option VariableRow}
    (listed : d.isListed s.1 = true) (h : rowOf pool d s = .ok row) :
    ∃ r, row = some r ∧ r.length = s.2.2 - s.2.1 := by
  unfold rowOf at h
  split at h
  · obtain ⟨name, -, rest⟩ := bind_eq_ok.mp h
    obtain ⟨descriptor, -, last⟩ := bind_eq_ok.mp rest
    cases last
    exact ⟨_, rfl, rfl⟩
  · rename_i unlisted
    unfold isListed at listed
    split at listed
    · rename_i name type fixed slot found
      exact (unlisted name type fixed slot found).elim
    · cases listed

/-- Rows of listed locals are as long as their stretches of code. -/
theorem lengths_rowOf {spans : List (Nat × UInt16 × UInt16)} {rows : List (Option VariableRow)}
    (listed : ∀ s ∈ spans, d.isListed s.1 = true) (h : spans.mapM (rowOf pool d) = .ok rows) :
    (rows.filterMap fun row => row).map (fun row => row.length) =
      spans.map fun s => s.2.2 - s.2.1 := by
  rw [mapM_eq_ok] at h
  induction h with
  | nil => rfl
  | @cons s row spans rows made rest ih =>
      obtain ⟨r, rfl, length⟩ := length_rowOf (listed s List.mem_cons_self) made
      have later := ih fun t member => listed t (List.mem_cons_of_mem s member)
      exact congrArg₂ List.cons length later

/-- With other ranges of the same locals only the rows differ. -/
theorem exists_assemble {ranges ranges' : List LiveRange} {c : Code} (depth' : UInt16)
    (h : d.assemble pool l depth frame ranges = .ok c)
    (within : ∀ s ∈ ranges'.filterMap (·.span? l), ∃ t ∈ ranges.filterMap (·.span? l), s.1 = t.1) :
    ∃ rows, d.assemble pool l depth' frame ranges' =
        .ok { c with maxStack := depth', locals := rows } ∧
      (ranges'.filterMap (·.span? l) = ranges.filterMap (·.span? l) → rows = c.locals) ∧
      ((∀ s ∈ ranges.filterMap (·.span? l), d.isListed s.1 = true) →
        (∀ s ∈ ranges'.filterMap (·.span? l), d.isListed s.1 = true) → rows = c.locals →
        (ranges'.filterMap (·.span? l)).map (fun s => s.2.2 - s.2.1) =
          (ranges.filterMap (·.span? l)).map fun s => s.2.2 - s.2.1) := by
  obtain ⟨handlers, rows, guarded, named, rfl⟩ := assemble_eq_ok.mp h
  obtain ⟨rows', named'⟩ : ∃ rows', (ranges'.filterMap (·.span? l)).mapM (rowOf pool d) =
      .ok rows' := by
    refine exists_mapM_eq_ok fun s member => ?_
    obtain ⟨t, found, same⟩ := within s member
    obtain ⟨row, -, made⟩ := exists_of_forall₂ (mapM_eq_ok.mp named) found
    exact exists_rowOf same made
  refine ⟨_, assemble_eq_ok.mpr ⟨handlers, rows', guarded, named', rfl⟩, fun same => ?_,
    fun listed listed' same => ?_⟩
  · rw [same, named] at named'
    cases named'
    rfl
  · rw [← lengths_rowOf listed named, ← lengths_rowOf listed' named', same]

theorem liveRanges_eq (liveness : Liveness) (d : Draft) :
    d.liveRanges liveness = (List.range d.locals.size).flatMap fun v =>
      if d.isListed v then (liveness.entryOf v).ranges.filterMap fun r =>
        (d.order[r.1]?).map fun node => LiveRange.mk v node d.order[r.2]?
      else [] := by
  unfold liveRanges isListed
  congr 1
  funext v
  rcases d.locals[v]? with _ | ⟨_ | name, type, fixed, _ | slot⟩ <;> rfl

/-- The bytes of runs of positions. -/
def bytesOf (l : Layout) (d : Draft) (runs : List (Nat × Nat)) : List (Nat × Nat) :=
  runs.filterMap fun r =>
    if l.offsetAt d.order.toList r.1 < l.offsetAt d.order.toList r.2 then
      some (l.offsetAt d.order.toList r.1, l.offsetAt d.order.toList r.2)
    else none

theorem bounds_bytesOf (le : ∀ i, l.offsetAt d.order.toList i ≤ l.code.length)
    {runs : List (Nat × Nat)} {r : Nat × Nat} (member : r ∈ bytesOf l d runs) :
    r.1 < r.2 ∧ r.2 ≤ l.code.length := by
  obtain ⟨run, -, made⟩ := List.mem_filterMap.mp member
  split at made
  · rename_i sized
    cases made
    exact ⟨sized, le run.2⟩
  · cases made

/-- The words for a stretch of code. -/
theorem toNat_stretch {a b : Nat} (less : a < b) (short : b ≤ 65535) :
    (UInt16.ofNat a).toNat = a ∧ (UInt16.ofNat b - UInt16.ofNat a).toNat = b - a := by
  have word : ∀ {n : Nat}, n ≤ 65535 → (UInt16.ofNat n).toNat = n := fun small =>
    UInt16.toNat_ofNat_of_lt' (by simp [UInt16.size]; omega)
  have first := word (Nat.le_trans (Nat.le_of_lt less) short)
  have last := word short
  refine ⟨first, ?_⟩
  rw [UInt16.toNat_sub_of_le, first, last]
  rw [UInt16.le_iff_toNat_le, first, last]
  exact Nat.le_of_lt less

theorem spans_liveRanges (le : ∀ i, l.offsetAt d.order.toList i ≤ l.code.length)
    (short : l.code.length ≤ 65535) (liveness : Liveness) :
    (d.liveRanges liveness).filterMap (·.span? l) =
      (List.range d.locals.size).flatMap fun v =>
        if d.isListed v then (bytesOf l d (liveness.entryOf v).ranges).map fun r =>
          (v, UInt16.ofNat r.1, UInt16.ofNat r.2)
        else [] := by
  have order : ∀ {a b : Nat}, a ≤ 65535 → b ≤ 65535 →
      (UInt16.ofNat a ≥ UInt16.ofNat b ↔ ¬ a < b) := by
    intro a b boundA boundB
    rw [ge_iff_le, UInt16.le_iff_toNat_le, UInt16.toNat_ofNat_of_lt' (by simp [UInt16.size]; omega),
      UInt16.toNat_ofNat_of_lt' (by simp [UInt16.size]; omega), Nat.not_lt]
  unfold bytesOf
  rw [liveRanges_eq, List.filterMap_flatMap]
  congr 1
  funext v
  split
  · rw [List.filterMap_filterMap, List.map_filterMap]
    congr 1
    funext ⟨start, stop⟩
    have boundA := Nat.le_trans (le start) short
    have boundB := Nat.le_trans (le stop) short
    dsimp only
    rw [← Array.getElem?_toList, ← Array.getElem?_toList]
    cases stored : d.order.toList[start]? with
    | none =>
        have last : l.offsetAt d.order.toList start = l.code.length := by
          rw [Layout.offsetAt, stored]
          rfl
        rw [if_neg (by rw [last]; exact Nat.not_lt.mpr (le stop))]
        rfl
    | some n =>
        have here : l.offsetOf (some n) = UInt16.ofNat (l.offsetAt d.order.toList start) := by
          rw [← Layout.offsetOf_eq, stored]
        rw [Option.map_some, Option.bind_some, LiveRange.span?]
        dsimp only
        rw [here, Layout.offsetOf_eq]
        by_cases sized : l.offsetAt d.order.toList start < l.offsetAt d.order.toList stop
        · rw [if_pos sized, if_neg ((order boundA boundB).not.mpr (not_not.mpr sized))]
          rfl
        · rw [if_neg sized, if_pos ((order boundA boundB).mpr sized)]
          rfl
  · rfl

/-- The bytes that the rows of a draft cover in all. -/
theorem sum_spans (le : ∀ i, l.offsetAt d.order.toList i ≤ l.code.length)
    (short : l.code.length ≤ 65535) (liveness : Liveness) :
    (((d.liveRanges liveness).filterMap (·.span? l)).map
        fun s => (s.2.2 - s.2.1).toNat).sum =
      ((List.range d.locals.size).map fun v =>
        if d.isListed v then ((bytesOf l d (liveness.entryOf v).ranges).map
          fun r => r.2 - r.1).sum
        else 0).sum := by
  rw [spans_liveRanges le short, List.flatMap_def, List.map_flatten, List.sum_flatten,
    List.map_map, List.map_map]
  congr 2
  funext v
  dsimp only [Function.comp_apply]
  split
  · rw [List.map_map]
    congr 1
    refine List.map_congr_left fun r member => ?_
    obtain ⟨sized, bound⟩ := bounds_bytesOf le member
    exact (toNat_stretch sized (Nat.le_trans bound short)).2
  · rfl

theorem listed_of_span {liveness : Liveness} {s : Nat × UInt16 × UInt16}
    (le : ∀ i, l.offsetAt d.order.toList i ≤ l.code.length) (short : l.code.length ≤ 65535)
    (member : s ∈ (d.liveRanges liveness).filterMap (·.span? l)) : d.isListed s.1 = true := by
  rw [spans_liveRanges le short] at member
  obtain ⟨v, -, found⟩ := List.mem_flatMap.mp member
  split at found
  · obtain ⟨r, -, rfl⟩ := List.mem_map.mp found
    assumption
  · cases found

end Draft

end JvmAssembly
