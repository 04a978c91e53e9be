import Mathlib
import JvmAssembly.Proofs.Draft.Evaluation
import JvmAssembly.Proofs.Draft.LiveRows
import JvmAssembly.Proofs.Draft.Reachable
import JvmAssembly.Proofs.Draft.Stretch
import JvmAssembly.Proofs.Pool.Interning

/-!
Resolving a draft that was resolved before. Slots and marks are as they have to be already, and
the layout has settled, so the draft stays as it is and the same code is written. What may differ
is what is read off the positions that widening put in: the rows of a local end at a far jump from
whose target on the local is not read, and the walk for the stack depth comes to subroutines in
another order.
-/
namespace JvmAssembly.Draft

variable {d d' : Draft} {pool : Pool} {f : Flow}

theorem contains_live_iff (valid : d.Valid) (flow : d.flow = .ok f) {v i : Nat}
    (inside : v < d.locals.size) :
    ((Liveness.ofFlow f d.locals.size).live v).contains i = true ↔ d.Alive v i := by
  rw [Liveness.contains_live inside, Bool.or_eq_true, contains_entryOf valid flow inside,
    contains_exitOf valid flow inside]
  rfl

/-- Stores that are marked as they should be stay as they are. -/
theorem markDeadStores_eq_self {liveness : Liveness} (nodup : d.order.toList.Nodup)
    (same : ∀ i x, d.at? i = some x → x.marked liveness i = x) :
    d.markDeadStores liveness = d := by
  have nodes : markFrom liveness d.nodes 0 d.order.toList = d.nodes := by
    refine Array.ext_getElem? fun n => ?_
    by_cases member : n ∈ d.order.toList
    · obtain ⟨i, stored⟩ := List.mem_iff_getElem?.mp member
      rw [markFrom_of_getElem? nodup stored, Nat.zero_add]
      cases found : d.nodes[n]? with
      | none => rfl
      | some node =>
          have here : d.at? i = some node.instruction := by
            rw [at?, stored, Option.map_some, instructionAt_of_getElem? found]
          rw [Option.map_some, same i _ here]
    · exact markFrom_of_not_mem member d.nodes 0
  rw [markDeadStores_eq, nodes]

theorem size_markDeadStores (liveness : Liveness) (d : Draft) :
    (d.markDeadStores liveness).nodes.size = d.nodes.size := by
  have all : ∀ (rest : List NodeId) (nodes : Array Node) (i : Nat),
      (markFrom liveness nodes i rest).size = nodes.size := by
    intro rest
    induction rest with
    | nil => exact fun _ _ => rfl
    | cons node rest ih =>
        intro nodes i
        rw [markFrom, ih, markStore, Array.size_modify]
  rw [markDeadStores_eq]
  exact all _ _ _

/-- A draft as layout finds it: its locals have slots and its stores are marked. -/
structure Prepared (d : Draft) (f : Flow) (frame : UInt16) (ready : Draft) : Prop where
  flow : d.flow = .ok f
  allocated : allocateSlots (.ofFlow f d.locals.size) d =
    (.ok frame, { d with locals := ready.locals })
  moved : Allocation.Reslotted d.locals ready.locals
  valid : ready.Valid
  flow_ready : ready.flow = .ok f
  id : ready.id = d.id
  order : ready.order = d.order
  handlers : ready.handlers = d.handlers
  lines : ready.lines = d.lines
  tracksLocals : ready.tracksLocals = d.tracksLocals
  reservedSlots : ready.reservedSlots = d.reservedSlots
  resembles : ∀ n, (ready.instructionAt n).Resembles (d.instructionAt n)
  marked : ∀ i x, ready.at? i = some x → x.marked (.ofFlow f d.locals.size) i = x

theorem prepared {frame : UInt16} {slotted : Draft} (valid : d.Valid) (flow : d.flow = .ok f)
    (allocated : allocateSlots (.ofFlow f d.locals.size) d = (.ok frame, slotted)) :
    Prepared d f frame (slotted.markDeadStores (.ofFlow f d.locals.size)) := by
  obtain ⟨same, moved⟩ := allocateSlots_reslotted allocated
  have valid' := valid.allocateSlots allocated
  have marked := markDeadStores_eq (.ofFlow f d.locals.size) slotted
  have locals : (slotted.markDeadStores (.ofFlow f d.locals.size)).locals = slotted.locals := by
    rw [marked]
  have nodes : slotted.nodes = d.nodes := by rw [same]
  have at' : ∀ n, slotted.instructionAt n = d.instructionAt n := fun n => by
    unfold instructionAt
    rw [nodes]
  have resembles : ∀ n, ((slotted.markDeadStores (.ofFlow f d.locals.size)).instructionAt
      n).Resembles (d.instructionAt n) := by
    intro n
    rw [← at']
    rcases instructionAt_markDeadStores_or (.ofFlow f d.locals.size) valid'.nodup n with
      node | ⟨i, node⟩
    · rw [node]
      exact .refl _
    · rw [node]
      exact Instruction.resembles_marked _ i _
  have flow' : (slotted.markDeadStores (.ofFlow f d.locals.size)).flow = d.flow := by
    refine flow_congr ?_ ?_ ?_ ?_ resembles
    · rw [marked, same]
    · rw [marked, same]
    · rw [size_markDeadStores, nodes]
    · rw [marked, same]
  refine ⟨flow, ?_, locals ▸ moved, valid'.markDeadStores _, flow'.trans flow, ?_, ?_, ?_, ?_, ?_,
    ?_, resembles, ?_⟩
  · rw [allocated, locals, ← same]
  · rw [marked, same]
  · rw [marked, same]
  · rw [marked, same]
  · rw [marked, same]
  · rw [marked, same]
  · rw [marked, same]
  · intro i x here
    obtain ⟨n, stored, rfl⟩ := Option.map_eq_some_iff.mp here
    rw [marked] at stored
    rw [instructionAt_markDeadStores _ valid'.nodup stored]
    cases slotted.instructionAt n <;> rfl

namespace Prepared

variable {frame : UInt16} {ready : Draft} {f' : Flow} {up down : Nat → Nat}

theorem count (prepared : Prepared d f frame ready) (stretches : Stretches ready d' up down) :
    d'.locals.size = d.locals.size := by
  rw [stretches.locals, prepared.moved.size]

theorem callFree (prepared : Prepared d f frame ready) (free : d.CallFree) : ready.CallFree := by
  intro i x here
  obtain ⟨n, stored, rfl⟩ := Option.map_eq_some_iff.mp here
  rw [(prepared.resembles n).isSubroutineCall]
  rw [prepared.order] at stored
  exact free i _ (Option.map_eq_some_iff.mpr ⟨n, stored, rfl⟩)

variable (prepared : Prepared d f frame ready) (valid : d.Valid) (valid' : d'.Valid)
  (stretches : Stretches ready d' up down) (flow' : d'.flow = .ok f')

include prepared valid

theorem alive_iff {v i : Nat} (inside : v < d.locals.size) : ready.Alive v i ↔ d.Alive v i :=
  alive_congr valid prepared.valid prepared.flow prepared.flow_ready prepared.moved.size inside

include valid' stretches flow'

/-- Locals are live together as they were. -/
theorem alike : Liveness.Alike (.ofFlow f d.locals.size) (.ofFlow f' d'.locals.size)
    d.locals.size := by
  have count := prepared.count stretches
  have common : ∀ {x : Draft} {g : Flow}, x.Valid → x.flow = .ok g →
      ∀ v < x.locals.size, ∀ w < x.locals.size,
        ((Liveness.ofFlow g x.locals.size).live v).intersects
          ((Liveness.ofFlow g x.locals.size).live w) = true ↔ ∃ i, x.Alive v i ∧ x.Alive w i := by
    intro x g sound flow v insideV w insideW
    have rangedV := Liveness.ranged_ofFlow g x.locals.size v insideV
    have rangedW := Liveness.ranged_ofFlow g x.locals.size w insideW
    rw [BitSet.intersects_iff rangedV.1 rangedW.1 (rangedV.2.trans rangedW.2.symm)]
    simp only [contains_live_iff sound flow insideV, contains_live_iff sound flow insideW]
  intro v insideV w insideW
  have readyV : v < ready.locals.size := prepared.moved.size ▸ insideV
  have readyW : w < ready.locals.size := prepared.moved.size ▸ insideW
  rw [Bool.eq_iff_iff, common valid' flow' v (count ▸ insideV) w (count ▸ insideW),
    common valid prepared.flow v insideV w insideW]
  constructor
  · rintro ⟨j, liveV, liveW⟩
    exact ⟨down j, (prepared.alive_iff valid insideV).mp (stretches.alive_down v readyV j liveV),
      (prepared.alive_iff valid insideW).mp (stretches.alive_down w readyW j liveW)⟩
  · rintro ⟨i, liveV, liveW⟩
    exact ⟨up i, stretches.alive_up v readyV i ((prepared.alive_iff valid insideV).mpr liveV),
      stretches.alive_up w readyW i ((prepared.alive_iff valid insideW).mpr liveW)⟩

theorem allocateSlots_again :
    allocateSlots (.ofFlow f' d'.locals.size) d' = (.ok frame, d') := by
  have count := prepared.count stretches
  have ranged' : (Liveness.ofFlow f' d'.locals.size).Ranged f'.size d.locals.size :=
    fun v inside => Liveness.ranged_ofFlow f' _ v (count ▸ inside)
  have again := allocateSlots_congr (prepared.alike valid valid' stretches flow')
    (Liveness.ranged_ofFlow f d.locals.size) ranged'
    (stretches.locals ▸ prepared.moved) (stretches.reservedSlots.trans prepared.reservedSlots)
    prepared.allocated
  rw [again]
  dsimp only
  rw [← stretches.locals]

theorem markDeadStores_again : d'.markDeadStores (.ofFlow f' d'.locals.size) = d' := by
  have count := prepared.count stretches
  refine markDeadStores_eq_self valid'.nodup fun j x here => ?_
  cases x with
  | store target kind discard =>
      obtain ⟨i, rfl, there, live⟩ := stretches.store j target kind discard here
      obtain ⟨n, stored, found⟩ := Option.map_eq_some_iff.mp here
      have inside : target.index < d'.locals.size :=
        ((valid'.owns n).defines target (by rw [found]; rfl)).2
      have inside' : target.index < ready.locals.size := stretches.locals ▸ inside
      have inside'' : target.index < d.locals.size := count ▸ inside
      have same := prepared.marked i _ there
      rw [Instruction.marked, Instruction.store.injEq] at same ⊢
      refine ⟨rfl, rfl, ?_⟩
      rw [← same.2.2]
      congr 1
      rw [Bool.eq_iff_iff, contains_exitOf valid' flow' inside, live _ inside',
        contains_exitOf valid prepared.flow inside'']
      exact liveOut_congr valid prepared.valid prepared.flow prepared.flow_ready
        prepared.moved.size inside''
  | _ => rfl

end Prepared

/-- How resolving came from a draft to another one and to its code. -/
structure Finished (pool : Pool) (d : Draft) (f : Flow) (frame : UInt16) (ready : Draft)
    (up down : Nat → Nat) (d' : Draft) (l : Layout) (c : Code) : Prop where
  prepared : Prepared d f frame ready
  stores : ∀ n, ready.instructionAt n = d.instructionAt n ∨
    ∃ i, ready.instructionAt n = (d.instructionAt n).marked (.ofFlow f d.locals.size) i
  widened : Layout.Pass.Widened ready d'
  stretches : Stretches ready d' up down
  settled : Layout.Settled pool d' l
  assembled : ∃ depth, d'.assemble pool l depth frame
    (if d.tracksLocals then ready.liveRanges (.ofFlow f d.locals.size) else []) = .ok c

theorem exists_finished {c : Code} (valid : d.Valid) (h : d.resolve pool = (.ok c, d')) :
    ∃ f frame ready up down l, Finished pool d f frame ready up down d' l c := by
  obtain ⟨f, frame, depth, slotted, l, flow, allocated, -, laid, assembled⟩ := resolve_eq_ok.mp h
  have prepared := prepared valid flow allocated
  have widened := Layout.layout_widens prepared.valid laid
  obtain ⟨up, down, stretches⟩ := stretches_of_widened prepared.valid prepared.flow_ready widened
  rw [prepared.tracksLocals] at assembled
  refine ⟨f, frame, _, up, down, l, prepared, fun n => ?_, widened, stretches,
    Layout.layout_settled prepared.valid laid, depth, assembled⟩
  have same : slotted.instructionAt n = d.instructionAt n := by
    rw [(allocateSlots_reslotted allocated).1]
    rfl
  rw [← same]
  exact instructionAt_markDeadStores_or _ (valid.allocateSlots allocated).nodup n

/-- What comes right before a position on entry to which a local is live, and has it not live on
entry itself, is no label. -/
theorem solid_before_live {v i : Nat} (dead : ¬ d.LiveIn v i) (live : d.LiveIn v (i + 1)) :
    ∃ x, d.at? i = some x ∧ x.isLabel = false := by
  obtain ⟨y, there⟩ := live.source
  have inside := exists_at?.mp ⟨y, there⟩
  obtain ⟨x, here⟩ := exists_at?.mpr (Nat.lt_of_succ_lt inside)
  refine ⟨x, here, ?_⟩
  cases x with
  | label => exact (dead (.pass here nofun (.next here rfl inside) live)).elim
  | _ => rfl

namespace Stretches

variable {ready : Draft} {up down : Nat → Nat} {l : Layout} {v : Nat}
  (stretches : Stretches ready d' up down)

include stretches

theorem up_le_up {i j : Nat} : up i ≤ up j ↔ i ≤ j := by
  rw [stretches.adjoint, stretches.down_up]

theorem up_succ (i : Nat) : up i + 1 ≤ up (i + 1) := by
  rw [Nat.succ_le_iff, ← Nat.not_le, stretches.up_le_up]
  exact Nat.not_succ_le_self i

theorem up_down_le (j : Nat) : up (down j) ≤ j := by
  rw [stretches.adjoint]

theorem lt_up_succ_down (j : Nat) : j < up (down j + 1) := by
  rw [← Nat.not_le, stretches.adjoint]
  exact Nat.not_succ_le_self _

theorem offsetAt_up (i : Nat) :
    l.offsetAt ready.order.toList i = l.offsetAt d'.order.toList (up i) := by
  rw [Layout.offsetAt, Layout.offsetAt, stretches.order]

/-- Bytes at which the local is live, as the draft had it before. -/
theorem runs_before (settled : Layout.Settled pool d' l) (valid : ready.Valid)
    (flow : ready.flow = .ok f) (inside : v < ready.locals.size) :
    Runs (fun n => ∃ i, ready.LiveIn v i ∧ l.offsetAt d'.order.toList (up i) ≤ n ∧
        n < l.offsetAt d'.order.toList (up (i + 1)))
      (bytesOf l ready ((Liveness.ofFlow f ready.locals.size).entryOf v).ranges) := by
  have solves := Liveness.solves_ofLocal (Liveness.Equations.ofFlow f) v
  have runs := (BitSet.runs_ranges (Liveness.entryOf_ofFlow inside ▸ solves.entry)).congr
    fun i => (contains_entryOf valid flow inside (i := i)).symm
  have mono : Monotone (l.offsetAt ready.order.toList) := by
    intro i j le
    rw [stretches.offsetAt_up, stretches.offsetAt_up]
    exact settled.monotone_offsetAt (stretches.up_le_up.mpr le)
  refine (runs.offsets mono fun i dead live => ?_).congr fun n => ?_
  · obtain ⟨x, here, solid⟩ := solid_before_live dead live
    obtain ⟨x', there, solid'⟩ := stretches.solid i x here solid
    rw [stretches.offsetAt_up, stretches.offsetAt_up]
    exact Nat.lt_of_lt_of_le ((settled.offsetAt_lt_succ there).mpr solid')
      (settled.monotone_offsetAt (stretches.up_succ i))
  · simp only [stretches.offsetAt_up]

end Stretches

/-- Bytes at which the local is live, as the draft that was laid out has it. -/
theorem runs_after {l : Layout} {v : Nat} (settled : Layout.Settled pool d l)
    (flow : d.flow = .ok f) (inside : v < d.locals.size) :
    Runs (fun n => ∃ j, d.LiveIn v j ∧ l.offsetAt d.order.toList j ≤ n ∧
        n < l.offsetAt d.order.toList (j + 1))
      (bytesOf l d ((Liveness.ofFlow f d.locals.size).entryOf v).ranges) := by
  have solves := Liveness.solves_ofLocal (Liveness.Equations.ofFlow f) v
  have runs := (BitSet.runs_ranges (Liveness.entryOf_ofFlow inside ▸ solves.entry)).congr
    fun i => (contains_entryOf settled.valid flow inside (i := i)).symm
  refine runs.offsets settled.monotone_offsetAt fun i dead live => ?_
  obtain ⟨x, here, solid⟩ := solid_before_live dead live
  exact (settled.offsetAt_lt_succ here).mpr solid

/-- Where positions were put in behind one that was there, a local that has rows and is live on
entry to that one is live on entry to them too, as far as they have bytes. -/
def Unsplit (d d' : Draft) : Prop :=
  ∀ (i j v : Nat) (x : Instruction), (∃ n ∈ d.order.toList, d'.order.toList[i]? = some n) → i < j →
    (∀ k, i < k → k ≤ j → ∀ n, d'.order.toList[k]? = some n → n ∉ d.order.toList) →
    d'.at? j = some x → x.isLabel = false → d'.isListed v = true → d'.LiveIn v i → d'.LiveIn v j

namespace Stretches

variable {ready : Draft} {up down : Nat → Nat} {l : Layout} {v : Nat}
  (stretches : Stretches ready d' up down)

include stretches

/-- What is not where a position of before has come to was put in behind it. -/
theorem put_in (nodup : d'.order.toList.Nodup) {j k : Nat} (past : up (down j) < k) (le : k ≤ j)
    {n : NodeId} (stored : d'.order.toList[k]? = some n) : n ∉ ready.order.toList := by
  intro member
  obtain ⟨i, found⟩ := List.mem_iff_getElem?.mp member
  have moved := (stretches.order i).trans found
  have inside := (List.getElem?_eq_some_iff.mp stored).1
  have same : k = up i := (List.getElem?_inj inside nodup).mp (stored.trans moved.symm)
  subst same
  exact Nat.not_lt.mpr (stretches.up_le_up.mpr ((stretches.adjoint i j).mp le)) past

theorem live_before {n : Nat} (settled : Layout.Settled pool d' l)
    (inside : v < ready.locals.size)
    (live : ∃ j, d'.LiveIn v j ∧ l.offsetAt d'.order.toList j ≤ n ∧
      n < l.offsetAt d'.order.toList (j + 1)) :
    ∃ i, ready.LiveIn v i ∧ l.offsetAt d'.order.toList (up i) ≤ n ∧
      n < l.offsetAt d'.order.toList (up (i + 1)) := by
  obtain ⟨j, live, low, high⟩ := live
  refine ⟨down j, stretches.liveIn_down v inside j live, ?_, ?_⟩
  · exact Nat.le_trans (settled.monotone_offsetAt (stretches.up_down_le j)) low
  · exact Nat.lt_of_lt_of_le high (settled.monotone_offsetAt (stretches.lt_up_succ_down j))

theorem live_after {n : Nat} (settled : Layout.Settled pool d' l) (unsplit : Unsplit ready d')
    (inside : v < ready.locals.size) (listed : d'.isListed v = true)
    (live : ∃ i, ready.LiveIn v i ∧ l.offsetAt d'.order.toList (up i) ≤ n ∧
      n < l.offsetAt d'.order.toList (up (i + 1))) :
    ∃ j, d'.LiveIn v j ∧ l.offsetAt d'.order.toList j ≤ n ∧
      n < l.offsetAt d'.order.toList (j + 1) := by
  obtain ⟨i, live, low, high⟩ := live
  have live' := (stretches.liveIn v inside i).mpr live
  obtain ⟨j, above, below, low', high'⟩ :=
    Runs.exists_between (stretches.up_le_up.mpr (Nat.le_succ i)) low high
  refine ⟨j, ?_, low', high'⟩
  rcases Nat.eq_or_lt_of_le above with rfl | put
  · exact live'
  have down_eq : down j = i := by
    refine Nat.le_antisymm ?_ ((stretches.adjoint i j).mp above)
    rw [← Nat.lt_succ_iff, ← Nat.not_le, ← stretches.adjoint]
    exact Nat.not_le.mpr below
  -- The byte belongs to what stands at `j`, so that is no label.
  obtain ⟨y, there⟩ := live.source
  obtain ⟨m, stored, -⟩ := Option.map_eq_some_iff.mp there
  have last : j < d'.order.toList.length := by
    by_contra past
    rw [l.offsetAt_end (Nat.le_of_not_lt past), l.offsetAt_end (by omega)] at *
    omega
  obtain ⟨x, here⟩ := exists_at?.mpr last
  refine unsplit (up i) j v x ⟨m, List.mem_of_getElem? stored, ?_⟩ put ?_ here ?_ listed live'
  · rw [stretches.order, stored]
  · intro k past le n' stored'
    exact stretches.put_in settled.valid.nodup (by rwa [down_eq]) le stored'
  · exact (settled.offsetAt_lt_succ here).mp (Nat.lt_of_le_of_lt low' high')

/-- Where nothing was put in, nothing is split. -/
theorem unsplit_of_length (valid : ready.Valid)
    (same : d'.order.toList.length = ready.order.toList.length) : Unsplit ready d' := by
  have within : ready.order.toList.Subperm d'.order.toList := by
    refine valid.nodup.subperm fun n member => ?_
    obtain ⟨i, stored⟩ := List.mem_iff_getElem?.mp member
    exact List.mem_of_getElem? ((stretches.order i).trans stored)
  have all := within.perm_of_length_le (Nat.le_of_eq same)
  intro i j v x _ lt new here _ _ _
  obtain ⟨n, stored, -⟩ := Option.map_eq_some_iff.mp here
  exact (new j lt (Nat.le_refl j) n stored
    (all.mem_iff.mpr (List.mem_of_getElem? stored))).elim

theorem isListed_eq (v : Nat) : d'.isListed v = ready.isListed v := by
  unfold isListed
  rw [stretches.locals]

theorem offsetAt_le (settled : Layout.Settled pool d' l) (i : Nat) :
    l.offsetAt ready.order.toList i ≤ l.code.length := by
  rw [stretches.offsetAt_up]
  exact settled.offsetAt_le _

/-- If the local is live at the same bytes as before, it is live wherever positions with bytes were
put in behind one at which it is live. -/
theorem live_put_in (settled : Layout.Settled pool d' l) (inside : v < ready.locals.size)
    (all : ∀ n, (∃ i, ready.LiveIn v i ∧ l.offsetAt d'.order.toList (up i) ≤ n ∧
        n < l.offsetAt d'.order.toList (up (i + 1))) →
      ∃ j, d'.LiveIn v j ∧ l.offsetAt d'.order.toList j ≤ n ∧
        n < l.offsetAt d'.order.toList (j + 1))
    {i j : Nat} {x : Instruction}
    (kept : ∃ n ∈ ready.order.toList, d'.order.toList[i]? = some n) (lt : i < j)
    (new : ∀ k, i < k → k ≤ j → ∀ n, d'.order.toList[k]? = some n → n ∉ ready.order.toList)
    (here : d'.at? j = some x) (solid : x.isLabel = false) (live : d'.LiveIn v i) :
    d'.LiveIn v j := by
  obtain ⟨n, member, stored⟩ := kept
  obtain ⟨k, found⟩ := List.mem_iff_getElem?.mp member
  have moved := (stretches.order k).trans found
  have same : i = up k := (List.getElem?_inj (List.getElem?_eq_some_iff.mp stored).1
    settled.valid.nodup).mp (stored.trans moved.symm)
  subst same
  have last := exists_at?.mp ⟨x, here⟩
  -- The next position of before comes behind all that was put in.
  have before : j < up (k + 1) := by
    by_contra reached
    have le := Nat.le_of_not_lt reached
    have short : k + 1 < ready.order.toList.length := by
      rw [← Nat.not_le, ← stretches.up_le_up, stretches.length]
      omega
    have next := stretches.order (k + 1)
    rw [List.getElem?_eq_getElem short] at next
    exact new _ (stretches.up_succ k) le _ next (List.getElem_mem short)
  have sized := (settled.offsetAt_lt_succ here).mpr solid
  obtain ⟨j', live', low, high⟩ := all (l.offsetAt d'.order.toList j)
    ⟨k, (stretches.liveIn v inside k).mp live, settled.monotone_offsetAt (Nat.le_of_lt lt),
      Nat.lt_of_lt_of_le sized (settled.monotone_offsetAt before)⟩
  rcases Nat.lt_trichotomy j' j with less | rfl | more
  · exact (Nat.not_lt.mpr (settled.monotone_offsetAt less) high).elim
  · exact live'
  · have past := settled.monotone_offsetAt (Nat.succ_le_of_lt more)
    exact (Nat.not_le.mpr sized (Nat.le_trans past low)).elim

section Rows

variable {f' : Flow} (settled : Layout.Settled pool d' l) (valid : ready.Valid)
  (flow : ready.flow = .ok f) (flow' : d'.flow = .ok f')

include settled valid flow flow'

theorem sum_runs (inside : v < ready.locals.size) :
    ((bytesOf l d' ((Liveness.ofFlow f' d'.locals.size).entryOf v).ranges).map
        fun r => r.2 - r.1).sum ≤
      ((bytesOf l ready ((Liveness.ofFlow f ready.locals.size).entryOf v).ranges).map
        fun r => r.2 - r.1).sum ∧
      (((bytesOf l d' ((Liveness.ofFlow f' d'.locals.size).entryOf v).ranges).map
          fun r => r.2 - r.1).sum =
        ((bytesOf l ready ((Liveness.ofFlow f ready.locals.size).entryOf v).ranges).map
          fun r => r.2 - r.1).sum →
        ∀ n, (∃ i, ready.LiveIn v i ∧ l.offsetAt d'.order.toList (up i) ≤ n ∧
            n < l.offsetAt d'.order.toList (up (i + 1))) →
          ∃ j, d'.LiveIn v j ∧ l.offsetAt d'.order.toList j ≤ n ∧
            n < l.offsetAt d'.order.toList (j + 1)) :=
  (stretches.runs_before settled valid flow inside).sum_le
    (runs_after settled flow' (stretches.locals ▸ inside))
    fun _ => stretches.live_before settled inside

/-- Rows of after are of locals that had rows before. -/
theorem exists_span : ∀ s ∈ (d'.liveRanges (.ofFlow f' d'.locals.size)).filterMap (·.span? l),
    ∃ t ∈ (ready.liveRanges (.ofFlow f ready.locals.size)).filterMap (·.span? l), s.1 = t.1 := by
  have count : d'.locals.size = ready.locals.size := by rw [stretches.locals]
  rw [spans_liveRanges (stretches.offsetAt_le settled) settled.short,
    spans_liveRanges settled.offsetAt_le settled.short]
  intro s member
  obtain ⟨v, inside, found⟩ := List.mem_flatMap.mp member
  rw [List.mem_range, count] at inside
  split at found
  case isFalse => cases found
  rename_i listed
  obtain ⟨r, run, rfl⟩ := List.mem_map.mp found
  have after := runs_after settled flow' (count ▸ inside)
  have before := stretches.runs_before settled valid flow inside
  have start := (after.cover r.1).mpr ⟨r, run, Nat.le_refl _, after.nonempty r run⟩
  obtain ⟨t, run', -⟩ := (before.cover r.1).mp (stretches.live_before settled inside start)
  refine ⟨(v, .ofNat t.1, .ofNat t.2),
    List.mem_flatMap.mpr ⟨v, List.mem_range.mpr inside, ?_⟩, rfl⟩
  rw [if_pos (stretches.isListed_eq v ▸ listed)]
  exact List.mem_map.mpr ⟨t, run', rfl⟩

theorem spans_of_unsplit (unsplit : Unsplit ready d') :
    (d'.liveRanges (.ofFlow f' d'.locals.size)).filterMap (·.span? l) =
      (ready.liveRanges (.ofFlow f ready.locals.size)).filterMap (·.span? l) := by
  have count : d'.locals.size = ready.locals.size := by rw [stretches.locals]
  rw [spans_liveRanges (stretches.offsetAt_le settled) settled.short,
    spans_liveRanges settled.offsetAt_le settled.short, count, List.flatMap_def, List.flatMap_def]
  congr 1
  refine List.map_congr_left fun v member => ?_
  have inside := List.mem_range.mp member
  rw [stretches.isListed_eq]
  split
  case isFalse => rfl
  rename_i listed
  have after := runs_after settled flow' (count ▸ inside)
  have before := stretches.runs_before settled valid flow inside
  rw [count] at after
  rw [after.unique (before.congr fun n => ?_)]
  exact ⟨stretches.live_before settled inside,
    stretches.live_after settled unsplit inside ((stretches.isListed_eq v).trans listed)⟩

/-- Rows that are as long as before have no local split. -/
theorem unsplit_of_spans
    (same : ((d'.liveRanges (.ofFlow f' d'.locals.size)).filterMap (·.span? l)).map
        (fun s => s.2.2 - s.2.1) =
      ((ready.liveRanges (.ofFlow f ready.locals.size)).filterMap (·.span? l)).map
        fun s => s.2.2 - s.2.1) : Unsplit ready d' := by
  have count : d'.locals.size = ready.locals.size := by rw [stretches.locals]
  have totals := congrArg (fun lengths => (lengths.map UInt16.toNat).sum) same
  simp only [List.map_map] at totals
  have sums := (sum_spans settled.offsetAt_le settled.short _).symm.trans
    (totals.trans (sum_spans (stretches.offsetAt_le settled) settled.short _))
  simp only [stretches.isListed_eq] at sums
  rw [count] at sums
  -- No local covers more than before, so each covers as much.
  have shorter := fun v inside => (stretches.sum_runs settled valid flow flow' (v := v) inside).1
  have each := (Finset.sum_eq_sum_iff_of_le (s := Finset.range ready.locals.size)
    fun v member => by
      split
      · exact count ▸ shorter v (Finset.mem_range.mp member)
      · exact Nat.le_refl 0).mp sums
  intro i j v x kept lt new here solid listed live
  have inside : v < ready.locals.size := count ▸ lt_of_isListed listed
  have total := each v (Finset.mem_range.mpr inside)
  rw [if_pos ((stretches.isListed_eq v).symm.trans listed),
    if_pos ((stretches.isListed_eq v).symm.trans listed), ← count] at total
  exact stretches.live_put_in settled inside
    ((stretches.sum_runs settled valid flow flow' inside).2 (count ▸ total)) kept lt new here solid live

end Rows

end Stretches

theorem Prepared.unsplit_iff {frame : UInt16} {ready : Draft}
    (prepared : Prepared d f frame ready) : Unsplit ready d' ↔ Unsplit d d' := by
  unfold Unsplit
  rw [prepared.order]

/-- What became of a draft that was resolved, so that it can be resolved again. -/
theorem exists_again {c : Code} (valid : d.Valid) (h : d.resolve pool = (.ok c, d')) :
    ∃ f', d'.flow = .ok f' ∧ (d'.order.size = d.order.size → Unsplit d d') ∧
      (d.CallFree ∨ d'.order.size = d.order.size → f'.maxStack = .ok c.maxStack) ∧
      (∀ fault, f'.maxStack = .error fault → d'.resolve pool = (.error fault, d')) ∧
      ∀ depth, f'.maxStack = .ok depth → ∃ rows,
        d'.resolve pool = (.ok { c with maxStack := depth, locals := rows }, d') ∧
          (rows = c.locals ↔ d.tracksLocals = false ∨ Unsplit d d') := by
  obtain ⟨f, frame, depth, slotted, l, flow, allocated, measured, laid, assembled⟩ :=
    resolve_eq_ok.mp h
  have prepared := prepared valid flow allocated
  generalize slotted.markDeadStores (.ofFlow f d.locals.size) = ready at *
  have widened := Layout.layout_widens prepared.valid laid
  have settled := Layout.layout_settled prepared.valid laid
  obtain ⟨up, down, stretches⟩ := stretches_of_widened prepared.valid prepared.flow_ready widened
  obtain ⟨f', flow'⟩ := stretches.flow
  have allocated' := prepared.allocateSlots_again valid settled.valid stretches flow'
  have marked' := prepared.markDeadStores_again valid settled.valid stretches flow'
  have laid' := Layout.layout_layout prepared.valid laid
  have deep : c.maxStack = depth := by
    obtain ⟨handlers, rows, -, -, rfl⟩ := assemble_eq_ok.mp assembled
    rfl
  refine ⟨f', flow', fun unmoved => ?_, ?_, ?_, ?_⟩
  · refine prepared.unsplit_iff.mp (stretches.unsplit_of_length prepared.valid ?_)
    rw [prepared.order, Array.length_toList, Array.length_toList, unmoved]
  · rintro (free | unmoved)
    · exact deep ▸ (stretches.depth (prepared.callFree free)).2 f f' depth prepared.flow_ready
        flow' measured
    · have equal := (flow_of_widened prepared.valid widened).2 (by
        rw [prepared.order, Array.length_toList, Array.length_toList, unmoved])
      cases flow'.symm.trans (equal.trans prepared.flow_ready)
      exact deep ▸ measured
  · intro fault failed
    unfold resolve
    rw [flow']
    dsimp only
    rw [allocated']
    dsimp only
    rw [marked', failed]
  · intro depth' measured'
    have resolves : ∀ {again}, d'.assemble pool l depth' frame
        (if d'.tracksLocals then d'.liveRanges (.ofFlow f' d'.locals.size) else []) = .ok again →
        d'.resolve pool = (.ok again, d') := by
      intro again assembled'
      refine resolve_eq_ok.mpr ⟨f', frame, depth', d', l, flow', allocated', measured', ?_, ?_⟩
      · rw [marked', laid']
      · rw [marked', assembled']
    rw [stretches.tracksLocals] at resolves
    rw [← prepared.tracksLocals, ← prepared.unsplit_iff]
    rw [← prepared.moved.size] at assembled
    cases tracked : ready.tracksLocals with
    | false =>
        rw [tracked] at assembled resolves
        have none : ∀ s ∈ ([] : List LiveRange).filterMap (·.span? l),
            ∃ t ∈ ([] : List LiveRange).filterMap (·.span? l), s.1 = t.1 :=
          fun s member => absurd member List.not_mem_nil
        obtain ⟨rows, assembled', same, -⟩ := exists_assemble depth' assembled none
        exact ⟨rows, resolves assembled', fun _ => .inl rfl, fun _ => same rfl⟩
    | true =>
        rw [tracked] at assembled resolves
        obtain ⟨rows, assembled', same, lengths⟩ := exists_assemble depth' assembled
          (stretches.exists_span settled prepared.valid prepared.flow_ready flow')
        refine ⟨rows, resolves assembled', fun kept => .inr ?_, fun whole => same ?_⟩
        · refine stretches.unsplit_of_spans settled prepared.valid prepared.flow_ready flow'
            (lengths (fun s member => ?_) (fun s member => ?_) kept)
          · rw [stretches.isListed_eq]
            exact listed_of_span (stretches.offsetAt_le settled) settled.short member
          · exact listed_of_span settled.offsetAt_le settled.short member
        · exact stretches.spans_of_unsplit settled prepared.valid prepared.flow_ready flow'
            (whole.resolve_left nofun)

/-- Resolving a draft that was resolved before leaves it as it is and writes the same code, in the
same frame, with the same handlers and line numbers. If no position was put in, the result is the
same in everything. If some were, and the draft calls no subroutine, it does not fail and comes to
the same depth; then the rows of locals are the same if and only if locals are not tracked or no
position that was put in splits one. -/
theorem resolve_resolve {c : Code} (reachable : d.Reachable)
    (h : d.resolve pool = (.ok c, d')) :
    (d'.resolve pool).2 = d' ∧
      (∀ again, (d'.resolve pool).1 = .ok again →
        again = { c with maxStack := again.maxStack, locals := again.locals }) ∧
      (d'.order.size = d.order.size → (d'.resolve pool).1 = .ok c) ∧
      (d.CallFree → ∃ rows, (d'.resolve pool).1 = .ok { c with locals := rows } ∧
        (rows = c.locals ↔ d.tracksLocals = false ∨ Unsplit d d')) := by
  obtain ⟨f', -, whole, kept, failed, again⟩ := exists_again reachable.valid h
  refine ⟨?_, ?_, fun unmoved => ?_, fun free => ?_⟩
  · cases measured : f'.maxStack with
    | error fault => rw [failed fault measured]
    | ok depth =>
        obtain ⟨rows, resolved, -⟩ := again depth measured
        rw [resolved]
  · intro other resolved
    cases measured : f'.maxStack with
    | error fault =>
        rw [failed fault measured] at resolved
        cases resolved
    | ok depth =>
        obtain ⟨rows, resolved', -⟩ := again depth measured
        rw [resolved'] at resolved
        cases resolved
        rfl
  · obtain ⟨rows, resolved, same⟩ := again c.maxStack (kept (.inr unmoved))
    rw [resolved, same.mpr (.inr (whole unmoved))]
  · obtain ⟨rows, resolved, same⟩ := again c.maxStack (kept (.inl free))
    exact ⟨rows, by rw [resolved], same⟩

/-- A loop that stores a local at its start and reads it behind its end, which is far. One handler
guards its condition, and the labels of another are the wrong way round. -/
def straying : Draft :=
  let d := ((empty 0).trackLocals true).createLocal (some "x") .int (some 0)
    |>.2.createLabel.2.createLabel.2.createLabel.2.createLabel.2
  let d := (placeLabel ⟨0, 0⟩ d).2
  let d := (push (.simple Opcode.iconst_0) d).2
  let d := (push (.store ⟨0, 0⟩ .int false) d).2
  let d := (push (.simple Opcode.iconst_0) d).2
  let d := (push (.switch ⟨0, 1⟩ [(0, ⟨0, 1⟩), (8200, ⟨0, 1⟩)] true) d).2
  let d := (placeLabel ⟨0, 1⟩ d).2
  let d := (push (.simple Opcode.iconst_0) d).2
  let d := (push (.branch Opcode.ifeq ⟨0, 0⟩) d).2
  let d := (placeLabel ⟨0, 2⟩ d).2
  let d := (push (.load ⟨0, 0⟩ .int) d).2
  let d := (push (.simple Opcode.ireturn) d).2
  let d := (placeLabel ⟨0, 3⟩ d).2
  let d := (push (.simple Opcode.athrow) d).2
  let d := (addHandler ⟨⟨0, 2⟩, ⟨0, 1⟩, ⟨0, 3⟩, none⟩ d).2
  (addHandler ⟨⟨0, 1⟩, ⟨0, 2⟩, ⟨0, 3⟩, none⟩ d).2

theorem straying_eq : straying =
    ⟨0, #[⟨.label, true⟩, ⟨.label, true⟩, ⟨.label, true⟩, ⟨.label, true⟩,
      ⟨.simple Opcode.iconst_0, true⟩, ⟨.store ⟨0, 0⟩ .int false, true⟩,
      ⟨.simple Opcode.iconst_0, true⟩, ⟨.switch ⟨0, 1⟩ [(0, ⟨0, 1⟩), (8200, ⟨0, 1⟩)] true, true⟩,
      ⟨.simple Opcode.iconst_0, true⟩, ⟨.branch Opcode.ifeq ⟨0, 0⟩, true⟩,
      ⟨.load ⟨0, 0⟩ .int, true⟩, ⟨.simple Opcode.ireturn, true⟩, ⟨.simple Opcode.athrow, true⟩],
      #[0, 4, 5, 6, 7, 1, 8, 9, 2, 10, 11, 3, 12], #[⟨some "x", .int, some 0, some 0⟩],
      #[⟨⟨0, 2⟩, ⟨0, 1⟩, ⟨0, 3⟩, none⟩, ⟨⟨0, 1⟩, ⟨0, 2⟩, ⟨0, 3⟩, none⟩], #[], true, 0⟩ := rfl

/-- The same with its condition inverted over a far jump. -/
def strayed : Draft :=
  ⟨0, #[⟨.label, true⟩, ⟨.label, true⟩, ⟨.label, true⟩, ⟨.label, true⟩,
    ⟨.simple Opcode.iconst_0, true⟩, ⟨.store ⟨0, 0⟩ .int false, true⟩,
    ⟨.simple Opcode.iconst_0, true⟩, ⟨.switch ⟨0, 1⟩ [(0, ⟨0, 1⟩), (8200, ⟨0, 1⟩)] true, true⟩,
    ⟨.simple Opcode.iconst_0, true⟩, ⟨.branch Opcode.ifne ⟨0, 13⟩, true⟩,
    ⟨.load ⟨0, 0⟩ .int, true⟩, ⟨.simple Opcode.ireturn, true⟩, ⟨.simple Opcode.athrow, true⟩,
    ⟨.label, true⟩, ⟨.branch Opcode.goto_w ⟨0, 0⟩, true⟩],
    #[0, 4, 5, 6, 7, 1, 8, 9, 14, 13, 2, 10, 11, 3, 12], #[⟨some "x", .int, some 0, some 0⟩],
    #[⟨⟨0, 2⟩, ⟨0, 1⟩, ⟨0, 3⟩, none⟩, ⟨⟨0, 1⟩, ⟨0, 2⟩, ⟨0, 3⟩, none⟩], #[], true, 0⟩

/-- Offsets of its nodes, with the end of the loop at `n`. -/
def strayedOffsets (n : Nat) : Offsets :=
  #[some 0, some n, some (n + 9), some (n + 11), some 0, some 1, some 2, some 3, some n,
    some (n + 1), some (n + 9), some (n + 10), some (n + 11), some (n + 9), some (n + 4)]

theorem exists_filling (offsets : Offsets) :
    ∃ code, 3 + code.length = 32820 ∧
      Encoding.switch offsets 3 ⟨0, 1⟩ [(0, ⟨0, 1⟩), (8200, ⟨0, 1⟩)] true =
        .bytes code (offsets.of? 1).isSome := by
  have known : Encoding.switch offsets 3 ⟨0, 1⟩ [(0, ⟨0, 1⟩), (8200, ⟨0, 1⟩)] true =
      .bytes (Encoding.switchTable offsets 3 ⟨0, 1⟩ [(0, ⟨0, 1⟩), (8200, ⟨0, 1⟩)] 0 8200)
        ((offsets.of? 1).isSome && ((offsets.of? 1).isSome && ((offsets.of? 1).isSome && true))) :=
    rfl
  have width : Encoding.switchWidth ⟨0, 1⟩ [(0, ⟨0, 1⟩), (8200, ⟨0, 1⟩)] true =
      12 + 4 * ((8200 : Int32).toInt - (0 : Int32).toInt + 1).toNat :=
    Encoding.switchWidth_table rfl rfl
  have labels : ((8200 : Int32).toInt - (0 : Int32).toInt + 1).toNat = 8201 := by decide
  refine ⟨_, ?_, known.trans (by rw [Bool.and_true, Bool.and_self, Bool.and_self])⟩
  rw [Encoding.length_switch known, width, labels]

theorem far_condition {offsets : Offsets} {n : Nat} (start : offsets.of? 0 = some 0)
    (far : 32768 ≤ n) : Encoding.branch offsets (n + 1) Opcode.ifeq ⟨0, 0⟩ =
      .tooFar Opcode.ifeq ⟨0, 0⟩ (0 - (n + 1 : Nat)) := by
  unfold Encoding.branch
  rw [start]
  dsimp only
  rw [if_neg (by decide), if_neg (by omega)]
  rfl

section Straying

variable (pool : Pool)

theorem straying_front : Layout.Pass.run pool [0, 4, 5, 6] ⟨{ straying with order := #[] }, #[],
    Array.replicate 13 none, #[], false, true⟩ = (.ok (), ⟨{ straying with order := #[] },
      #[0, 4, 5, 6], #[some 0, none, none, none, some 0, some 1, some 2, none, none, none, none,
        none, none], #[Opcode.iconst_0, 59, Opcode.iconst_0], true, true⟩) := by
  rw [straying_eq]
  rfl

theorem straying_filling : ∃ bytes : Array UInt8, bytes.size = 32820 ∧
    Layout.Pass.step pool ⟨{ straying with order := #[] }, #[0, 4, 5, 6],
      #[some 0, none, none, none, some 0, some 1, some 2, none, none, none, none, none, none],
      #[Opcode.iconst_0, 59, Opcode.iconst_0], true, true⟩ 7 =
      (.ok (), ⟨{ straying with order := #[] }, #[0, 4, 5, 6, 7],
        #[some 0, none, none, none, some 0, some 1, some 2, some 3, none, none, none, none, none],
        bytes, true, false⟩) := by
  obtain ⟨code, length, encoded⟩ := exists_filling #[some 0, none, none, none, some 0, some 1,
    some 2, some 3, none, none, none, none, none]
  refine ⟨#[Opcode.iconst_0, 59, Opcode.iconst_0] ++ code, ?_,
    Layout.Pass.step_fresh rfl rfl rfl (congrArg Except.ok encoded)⟩
  rw [← length]
  simp
  omega

variable (bytes : Array UInt8) {n : Nat}

theorem straying_next (size : bytes.size = n) :
    Layout.Pass.run pool [1, 8] ⟨{ straying with order := #[] }, #[0, 4, 5, 6, 7],
      #[some 0, none, none, none, some 0, some 1, some 2, some 3, none, none, none, none, none],
      bytes, true, false⟩ = (.ok (), ⟨{ straying with order := #[] }, #[0, 4, 5, 6, 7, 1, 8],
        #[some 0, some n, none, none, some 0, some 1, some 2, some 3, some n, none, none, none,
          none], bytes.push Opcode.iconst_0, true, false⟩) := by
  subst size
  rfl

theorem straying_condition (far : 32768 ≤ n) (size : bytes.size = n + 1) :
    ∃ more : Array UInt8, more.size = n + 9 ∧
    Layout.Pass.step pool ⟨{ straying with order := #[] }, #[0, 4, 5, 6, 7, 1, 8],
      #[some 0, some n, none, none, some 0, some 1, some 2, some 3, some n, none, none, none,
        none], bytes, true, false⟩ 9 =
      (.ok (), ⟨{ strayed with order := #[] }, #[0, 4, 5, 6, 7, 1, 8, 9, 14, 13],
        #[some 0, some n, none, none, some 0, some 1, some 2, some 3, some n, some (n + 1), none,
          none, none, some (n + 9), some (n + 4)], more, true, false⟩) := by
  have widened : Layout.Pass.widenCondition ⟨{ straying with order := #[] },
      #[0, 4, 5, 6, 7, 1, 8], #[some 0, some n, none, none, some 0, some 1, some 2, some 3,
        some n, some (n + 1), none, none, none], bytes, true, false⟩ 9 Opcode.ifne ⟨0, 0⟩
        (0 - (n + 1 : Nat)) =
      ⟨{ strayed with order := #[] }, #[0, 4, 5, 6, 7, 1, 8, 9, 14, 13],
        #[some 0, some n, none, none, some 0, some 1, some 2, some 3, some n, some (n + 1), none,
          none, none, some (bytes ++ [Opcode.ifne, 0, 0] ++
            (Opcode.goto_w :: be32OfInt (0 - (n + 1 : Nat) - 3))).size,
          some (bytes ++ [Opcode.ifne, 0, 0]).size],
        bytes ++ [Opcode.ifne, 0, 0] ++ (Opcode.goto_w :: be32OfInt (0 - (n + 1 : Nat) - 3)), true,
        false⟩ := by
    rw [straying_eq]
    rfl
  have near : (bytes ++ [Opcode.ifne, 0, 0]).size = n + 4 := by simp [size]
  have whole : (bytes ++ [Opcode.ifne, 0, 0] ++
      (Opcode.goto_w :: be32OfInt (0 - (n + 1 : Nat) - 3))).size = n + 9 := by
    rw [Layout.Pass.size_append, near, List.length_cons, Encoding.length_be32OfInt]
  rw [near, whole] at widened
  exact ⟨_, whole, (Layout.Pass.step_inverts rfl size rfl (far_condition rfl far) rfl rfl).trans
    (congrArg _ widened)⟩

theorem straying_last (size : bytes.size = n + 9) :
    Layout.Pass.run pool [2, 10, 11, 3, 12] ⟨{ strayed with order := #[] },
      #[0, 4, 5, 6, 7, 1, 8, 9, 14, 13], #[some 0, some n, none, none, some 0, some 1, some 2,
        some 3, some n, some (n + 1), none, none, none, some (n + 9), some (n + 4)], bytes, true,
      false⟩ = (.ok (), ⟨{ strayed with order := #[] },
        #[0, 4, 5, 6, 7, 1, 8, 9, 14, 13, 2, 10, 11, 3, 12], strayedOffsets n,
        bytes ++ [(26 : UInt8)] ++ [Opcode.ireturn] ++ [Opcode.athrow], true, false⟩) := by
  have read : (bytes ++ [(26 : UInt8)]).size = n + 10 := by simp [size]
  have left : (bytes ++ [(26 : UInt8)] ++ [Opcode.ireturn]).size = n + 11 := by simp [size]
  refine (Layout.Pass.run_cons (Layout.Pass.step_fresh rfl size rfl rfl)).trans ?_
  refine (Layout.Pass.run_cons (Layout.Pass.step_fresh rfl size rfl rfl)).trans ?_
  refine (Layout.Pass.run_cons (Layout.Pass.step_fresh rfl read rfl rfl)).trans ?_
  refine (Layout.Pass.run_cons (Layout.Pass.step_fresh rfl left rfl rfl)).trans ?_
  exact Layout.Pass.run_cons (Layout.Pass.step_fresh rfl left rfl rfl)

theorem straying_pass : ∃ code : Array UInt8, code.size = 32832 ∧
    Layout.pass pool straying (Array.replicate 13 none) =
      (.ok (), ⟨strayed, #[], strayedOffsets 32820, code, true, false⟩) := by
  obtain ⟨filled, size, filling⟩ := straying_filling pool
  obtain ⟨turned, size', condition⟩ := straying_condition pool (filled.push Opcode.iconst_0)
    (n := 32820) (by decide) (by rw [Array.size_push, size])
  have ran : Layout.Pass.run pool ([0, 4, 5, 6] ++ (7 :: ([1, 8] ++ (9 :: [2, 10, 11, 3, 12]))))
      ⟨{ straying with order := #[] }, #[], Array.replicate 13 none, #[], false, true⟩ =
      (.ok (), ⟨{ strayed with order := #[] },
        #[0, 4, 5, 6, 7, 1, 8, 9, 14, 13, 2, 10, 11, 3, 12], strayedOffsets 32820,
        turned ++ [(26 : UInt8)] ++ [Opcode.ireturn] ++ [Opcode.athrow], true, false⟩) := by
    refine (Layout.Pass.run_append (straying_front pool)).trans ?_
    refine (Layout.Pass.run_cons filling).trans ?_
    refine (Layout.Pass.run_append (straying_next pool filled size)).trans ?_
    refine (Layout.Pass.run_cons condition).trans ?_
    exact straying_last pool turned size'
  have order : straying.order.toList =
      [0, 4, 5, 6] ++ (7 :: ([1, 8] ++ (9 :: [2, 10, 11, 3, 12]))) := rfl
  refine ⟨_, ?_, Layout.pass_of_run order ran⟩
  simp [size']

/-- What is written behind the switch. -/
theorem written_strayed_end (n : Nat) : ∃ more, more.length = 12 ∧
    Written strayed pool (strayedOffsets n) n [1, 8, 9, 14, 13, 2, 10, 11, 3, 12] more := by
  have hop : Encoding.branch (strayedOffsets n) (n + 1) Opcode.ifne ⟨0, 13⟩ =
      .bytes (Opcode.ifne :: be16 (Int16.ofInt ((n + 9 : Nat) - (n + 1 : Nat))).toUInt16) true := by
    unfold Encoding.branch
    have there : (strayedOffsets n).of? 13 = some (n + 9) := rfl
    rw [there]
    dsimp only
    rw [if_neg (by decide), if_pos (by omega)]
    rfl
  refine ⟨[] ++ ([Opcode.iconst_0] ++ ((Opcode.ifne :: be16 (Int16.ofInt ((n + 9 : Nat) -
    (n + 1 : Nat))).toUInt16) ++ ((Opcode.goto_w :: be32OfInt (0 - (n + 4 : Nat))) ++
      ([] ++ ([] ++ ([26] ++ ([Opcode.ireturn] ++ ([] ++ ([Opcode.athrow] ++ []))))))))), rfl, ?_⟩
  exact .cons rfl rfl (.cons rfl rfl (.cons rfl (congrArg Except.ok hop) (.cons rfl rfl
    (.cons rfl rfl (.cons rfl rfl (.cons rfl rfl (.cons rfl rfl (.cons rfl rfl (.cons rfl rfl
      (.nil _))))))))))

theorem settled_strayed (valid : strayed.Valid) : ∃ code : Bytes,
    Layout.Settled pool strayed ⟨code, strayedOffsets 32820⟩ := by
  obtain ⟨code, length, encoded⟩ := exists_filling (strayedOffsets 32820)
  obtain ⟨more, size, written⟩ := written_strayed_end pool 32820
  refine ⟨[] ++ ([Opcode.iconst_0] ++ ([59] ++ ([Opcode.iconst_0] ++ (code ++ more)))), valid, rfl,
    ?_, ?_, ?_⟩
  · have all : ∀ n < 15, n ∈ strayed.order.toList := by decide
    intro n outside
    have past : 15 ≤ n := Nat.le_of_not_lt fun inside => outside (all n inside)
    have bound : (strayedOffsets 32820).size ≤ n := past
    rw [Offsets.of?, Array.getElem?_eq_none bound]
  · have behind : Written strayed pool (strayedOffsets 32820) (3 + code.length)
        [1, 8, 9, 14, 13, 2, 10, 11, 3, 12] more := by rwa [length]
    exact .cons rfl rfl (.cons rfl rfl (.cons rfl rfl (.cons rfl rfl
      (.cons rfl (congrArg Except.ok encoded) behind))))
  · simp only [List.length_append, List.length_cons, List.length_nil, size]
    omega

theorem reachable_straying : straying.Reachable := by
  have labels := (((Reachable.empty 0).trackLocals true).createLocal (some "x") .int
    (some 0)).createLabel.createLabel.createLabel.createLabel
  have loop := ((((((labels.placeLabel ⟨0, 0⟩).push (.simple Opcode.iconst_0)).push
    (.store ⟨0, 0⟩ .int false)).push (.simple Opcode.iconst_0)).push
    (.switch ⟨0, 1⟩ [(0, ⟨0, 1⟩), (8200, ⟨0, 1⟩)] true)).placeLabel ⟨0, 1⟩).push
    (.simple Opcode.iconst_0)
  have code := ((((loop.push (.branch Opcode.ifeq ⟨0, 0⟩)).placeLabel ⟨0, 2⟩).push
    (.load ⟨0, 0⟩ .int)).push (.simple Opcode.ireturn)).placeLabel ⟨0, 3⟩
  exact ((code.push (.simple Opcode.athrow)).addHandler ⟨⟨0, 2⟩, ⟨0, 1⟩, ⟨0, 3⟩, none⟩).addHandler
    ⟨⟨0, 1⟩, ⟨0, 2⟩, ⟨0, 3⟩, none⟩

theorem layout_straying : ∃ code : Bytes,
    straying.layout pool = (.ok ⟨code, strayedOffsets 32820⟩, strayed) := by
  obtain ⟨bytes, size, passed⟩ := straying_pass pool
  have valid := Layout.Pass.valid_widened reachable_straying.valid
    (Layout.pass_widens reachable_straying.valid passed)
  obtain ⟨code, settled⟩ := settled_strayed pool valid
  have budget : Layout.passBudget straying = 22334341119 + 1 + 1 := rfl
  have nodes : straying.nodes.size = 13 := rfl
  refine ⟨code, ?_⟩
  rw [layout, budget, nodes, Layout.settle, passed]
  dsimp only
  rw [size, if_neg (by decide), if_neg (by decide)]
  exact settled.settle rfl (fun n => .inr rfl) (by decide)

end Straying

/-- The condition of the loop goes to its start, through the far jump, if it holds, and past both
new nodes to the label behind it if it does not. -/
theorem layout_control_flow_straying :
    straying.Reachable ∧ (∀ n ∈ straying.order.toList,
      ∀ label ∈ (straying.instructionAt n).targets, straying.isPlaced label = true) ∧
      ∃ code, straying.layout .empty = (.ok ⟨code, strayedOffsets 32820⟩, strayed) ∧
        strayed.order.toList.filter (fun n => decide (n < 13)) = straying.order.toList ∧
        Opposed (fun op => op % 2 == 1) ∧
        strayed.Arrives (fun op => op % 2 == 1) 13 9 (some 0) ∧
        Opposed (fun op => op % 2 == 0) ∧
        strayed.Arrives (fun op => op % 2 == 0) 13 9 (some 2) ∧
        JumpsBy code 32821 Opcode.ifne 8 ∧ JumpsBy code 32824 Opcode.goto_w (-32824) := by
  have placed : ∀ n ∈ straying.order.toList, ∀ label ∈ (straying.instructionAt n).targets,
      straying.isPlaced label = true := by decide
  obtain ⟨code, laid⟩ := layout_straying .empty
  obtain ⟨order, -, conditions, -, -, -, jumps⟩ :=
    layout_control_flow reachable_straying placed laid
  have arrives := conditions 9 (by decide) Opcode.ifeq ⟨0, 0⟩ rfl (by decide)
  have odd : Opposed (fun op => op % 2 == 1) := opposed_parity (.inr rfl)
  have even : Opposed (fun op => op % 2 == 0) := opposed_parity (.inl rfl)
  have next : straying.next? 9 = some 2 := by decide +kernel
  have leaves := arrives _ even
  rw [if_neg (by decide), next] at leaves
  obtain ⟨_, _, here, there, hops⟩ := jumps 9 (by decide) Opcode.ifne ⟨0, 13⟩ rfl
  cases here
  cases there
  obtain ⟨_, _, here, there, returns⟩ := jumps 14 (by decide) Opcode.goto_w ⟨0, 0⟩ rfl
  cases here
  cases there
  exact ⟨reachable_straying, placed, code, laid, order, odd, arrives _ odd, even, leaves, hops,
    returns⟩

/-- Layout of a draft that it has left, with the same pool, answers with the same code and the same
offsets and leaves the draft as it is. No jump is found too far on the way: it takes two passes at
most, and each of them leaves the draft unchanged and has every node at its offset. -/
theorem layout_again {l : Layout} (valid : d.Valid) (laid : d.layout pool = (.ok l, d')) :
    d'.layout pool = (.ok l, d') ∧
      ∀ k result p, d'.passes pool k = some (result, p) →
        k < 2 ∧ result = .ok () ∧ p.draft = d' ∧ p.offsets = l.offsets := by
  have settled := Layout.layout_settled valid laid
  have unknown : Offsets.Within (Array.replicate d'.nodes.size none) l.offsets := fun n =>
    .inl (Offsets.of?_replicate_none _ n)
  refine ⟨settled.layout, ?_⟩
  intro k result p passed
  rcases settled.nth_cases Array.size_replicate unknown passed with ⟨rfl, first⟩ | ⟨rfl, second⟩
  · obtain ⟨q, found, draft, offsets, -⟩ := settled.pass Array.size_replicate unknown
    cases first.trans found
    exact ⟨by decide, rfl, draft, offsets⟩
  · obtain ⟨q, found, draft, offsets, -⟩ := settled.pass settled.sized fun n => .inr rfl
    cases second.trans found
    exact ⟨by decide, rfl, draft, offsets⟩

theorem layout_again_straying :
    straying.Valid ∧ ∃ code p,
      straying.layout .empty = (.ok ⟨code, strayedOffsets 32820⟩, strayed) ∧
      strayed.layout .empty = (.ok ⟨code, strayedOffsets 32820⟩, strayed) ∧
      strayed.passes .empty 0 = some (.ok (), p) ∧ p.draft = strayed ∧
      p.offsets = strayedOffsets 32820 := by
  obtain ⟨code, laid⟩ := layout_straying .empty
  obtain ⟨again, unchanged⟩ := layout_again reachable_straying.valid laid
  obtain ⟨-, done, draft, offsets⟩ := unchanged 0 _ _ rfl
  exact ⟨reachable_straying.valid, code, _, laid, again, congrArg some (Prod.ext done rfl), draft,
    offsets⟩

/-- A pool with the name and the type of the local. -/
def names : Pool :=
  { (Pool.empty.append (.utf8 "x")).append (.utf8 "I") with
    numbering := some ⟨#[0, 1], #[1, 2], #[none, some 0, some 1]⟩ }

theorem indexOfText_names :
    names.indexOfText "x" = .ok 1 ∧ names.indexOfText FieldType.int.render = .ok 2 := by
  have find : ∀ c, names.find? c = ((Pool.empty.append (.utf8 "x")).append (.utf8 "I")).find? c :=
    fun _ => rfl
  have none : ∀ c, Pool.empty.find? c = none := fun _ => Std.HashMap.getElem?_empty
  have name : names.find? (.utf8 "x") = some 0 := by
    rw [find, Pool.find?_append, Pool.find?_append, none, if_pos rfl]
    rfl
  have type : names.find? (.utf8 FieldType.int.render) = some 1 := by
    rw [find, Pool.find?_append, Pool.find?_append, none, if_neg (by decide),
      if_pos (by decide)]
    rfl
  constructor
  · rw [Pool.indexOfText, Pool.indexOfConstant, name]
    rfl
  · rw [Pool.indexOfText, Pool.indexOfConstant, type]
    rfl

theorem resolve_straying : ∃ c, straying.resolve names = (.ok c, strayed) ∧
    c.handlers = [⟨32820, 32829, 32831, 0⟩] := by
  obtain ⟨code, laid⟩ := layout_straying names
  obtain ⟨f, flow, measured⟩ : ∃ f, straying.flow = .ok f ∧ f.maxStack = .ok 1 :=
    exists_maxStack 40 (by decide +kernel)
  have evaluated : straying.flow.toOption.map (fun f =>
      (allocateSlots (.ofFlow f straying.locals.size) straying,
        straying.markDeadStores (.ofFlow f straying.locals.size))) =
      some ((.ok 1, straying), straying) := by
    cbv
  rw [flow] at evaluated
  obtain ⟨allocated, marked⟩ := Prod.mk.inj (Option.some.inj evaluated)
  have rows : ∀ s, ∃ row, rowOf names strayed s = .ok row := by
    rintro ⟨_ | v, start, stop⟩
    · obtain ⟨name, type⟩ := indexOfText_names
      exact ⟨_, bind_eq_ok.mpr ⟨1, name, bind_eq_ok.mpr ⟨2, type, rfl⟩⟩⟩
    · exact ⟨none, rfl⟩
  obtain ⟨made, each⟩ : ∃ made, ((straying.liveRanges (.ofFlow f straying.locals.size)).filterMap
      (·.span? ⟨code, strayedOffsets 32820⟩)).mapM (rowOf names strayed) = .ok made :=
    exists_mapM_eq_ok fun s _ => rows s
  refine ⟨⟨1, 1, code, [⟨32820, 32829, 32831, 0⟩], [], made.filterMap fun row => row⟩,
    resolve_eq_ok.mpr ⟨f, 1, 1, straying, ⟨code, strayedOffsets 32820⟩, flow, allocated, measured,
      ?_, ?_⟩, rfl⟩
  · rw [marked, laid]
  · rw [marked]
    exact assemble_eq_ok.mpr ⟨[none, some ⟨32820, 32829, 32831, 0⟩], made, rfl, each, rfl⟩

theorem callFree_straying : straying.CallFree := by
  have all : ∀ i < straying.order.toList.length,
      (straying.at? i).all (fun x => ! x.isSubroutineCall) = true := by decide
  intro i x here
  exact (Bool.not_eq_true' _).mp (of_all_at? all here)

/-- The local is live on entry to the inverted condition and not on entry to the far jump. -/
theorem not_unsplit_straying : ¬ Unsplit straying strayed := by
  intro unsplit
  obtain ⟨c, resolved, -⟩ := resolve_straying
  have valid : strayed.Valid := by
    have reachable := reachable_straying.resolve names
    rw [resolved] at reachable
    exact reachable.valid
  obtain ⟨f, flow⟩ : ∃ f, strayed.flow = .ok f := ⟨_, rfl⟩
  have evaluated : strayed.flow.toOption.map (fun f =>
      (((Liveness.ofFlow f strayed.locals.size).entryOf 0).contains 7,
        ((Liveness.ofFlow f strayed.locals.size).entryOf 0).contains 8)) = some (true, false) := by
    decide +kernel
  rw [flow] at evaluated
  have live : strayed.LiveIn 0 7 := (contains_entryOf valid flow (by decide)).mp
    (congrArg Prod.fst (Option.some.inj evaluated))
  have split : strayed.LiveIn 0 8 := by
    refine unsplit 7 8 0 _ ⟨9, by decide, rfl⟩ (by decide) ?_ rfl rfl rfl live
    intro k past le n stored
    obtain rfl : k = 8 := by omega
    cases stored
    decide
  have dead : ((Liveness.ofFlow f strayed.locals.size).entryOf 0).contains 8 = false :=
    congrArg Prod.snd (Option.some.inj evaluated)
  rw [(contains_entryOf valid flow (by decide)).mpr split] at dead
  cases dead

theorem resolve_resolve_straying : straying.Reachable ∧ straying.CallFree ∧
    ∃ c rows, straying.resolve names = (.ok c, strayed) ∧ (strayed.resolve names).2 = strayed ∧
      (strayed.resolve names).1 = .ok { c with locals := rows } ∧
      (rows = c.locals ↔ straying.tracksLocals = false ∨ Unsplit straying strayed) := by
  obtain ⟨c, resolved, -⟩ := resolve_straying
  obtain ⟨same, -, -, again⟩ := resolve_resolve reachable_straying resolved
  obtain ⟨rows, resolved', exactly⟩ := again callFree_straying
  exact ⟨reachable_straying, callFree_straying, c, rows, resolved, same, resolved', exactly⟩

/-- The rows of a local differ when the draft is resolved again. -/
theorem resolve_ne_straying : straying.Reachable ∧
    ((Pool.empty.append (.utf8 "x")).append (.utf8 "I")).assign .preserve = .ok names ∧
    ∃ c again, straying.resolve names = (.ok c, strayed) ∧
      strayed.resolve names = (.ok again, strayed) ∧ again.locals ≠ c.locals := by
  obtain ⟨c, resolved, -⟩ := resolve_straying
  obtain ⟨f', -, -, kept, -, again⟩ := exists_again reachable_straying.valid resolved
  obtain ⟨rows, resolved', exactly⟩ := again c.maxStack (kept (.inl callFree_straying))
  refine ⟨reachable_straying, rfl, c, _, resolved, resolved', fun same => ?_⟩
  rcases exactly.mp same with untracked | unsplit
  · cases untracked
  · exact not_unsplit_straying unsplit

end JvmAssembly.Draft
