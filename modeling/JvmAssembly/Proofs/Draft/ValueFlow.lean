import Mathlib
import JvmAssembly.Draft.Encoding
import JvmAssembly.Proofs.Draft.Liveness
import JvmAssembly.Proofs.Draft.Reachable

/-!
Values of locals along paths through a draft. With one cell for each local every store is
written; with one cell for each slot, locals share cells and stores without a reader are dropped.
Whatever path control takes, with exceptions or without, what is read is the same.
-/
namespace JvmAssembly

/-- How a path leaves a position: where it goes, and whether by an exception. -/
structure Hop where
  thrown : Bool
  there : Nat

/-- The local that a load or a store moves, and the kind under which it does. -/
def Instruction.moved? : Instruction → Option (Local × LocalKind)
  | .load source kind => some (source, kind)
  | .store target kind _ => some (target, kind)
  | _ => none

def Instruction.isDiscarded : Instruction → Bool
  | .store _ _ discard => discard
  | _ => false

namespace Draft

/-- Control may take every step of the path, beginning at the position. -/
def IsPath (d : Draft) : Nat → List Hop → Prop
  | _, [] => True
  | i, hop :: rest =>
    (if hop.thrown then d.Throws i hop.there else d.Edge i hop.there) ∧ d.IsPath hop.there rest

/-- Loads and stores have the kinds of their locals. -/
def KindsMatch (d : Draft) : Prop :=
  ∀ n ∈ d.order.toList, ∀ m ∈ (d.instructionAt n).moved?, ∀ info ∈ d.locals[m.1.index]?,
    m.2 = info.kind

/-- Locals whose fixed slots overlap are never live together. -/
def FixedApart (d : Draft) (l : Liveness) : Prop :=
  ∀ (v w : Nat) (lv lw : LocalInfo) (s t : UInt16) (i : Nat), v ≠ w →
    d.locals[v]? = some lv → d.locals[w]? = some lw →
    lv.fixedSlot = some s → lw.fixedSlot = some t →
    s.toNat < t.toNat + lw.kind.width → t.toNat < s.toNat + lv.kind.width →
    ¬ ((l.live v).contains i = true ∧ (l.live w).contains i = true)

/-- The first slot that an instruction accesses for a local, and how many. -/
def span (d : Draft) (x : Instruction) (v : Local) : Except Fault (Nat × Nat) := do
  let info ← d.localInfo v
  let slot ← d.slotOf v
  return (slot.toNat, ((x.moved?.map (·.2)).getD info.kind).width)

end Draft

/-- Where locals live: the cell that an instruction reads and those that it fills. -/
structure Cells where
  source : Instruction → Local → Except Fault Nat
  filled : Instruction → Local → Except Fault (List Nat)

namespace Cells

variable {V : Type}

/-- One cell for each local. -/
def byLocal : Cells where
  source _ v := .ok v.index
  filled _ v := .ok [v.index]

/-- One cell for each slot. A value of two slots is in both of them, and `upper` says which of
them is read. Discarded stores fill nothing. -/
def bySlot (d : Draft) (upper : Bool) : Cells where
  source x v := do
    let (slot, width) ← d.span x v
    return slot + if upper then width - 1 else 0
  filled x v :=
    if x.isDiscarded then .ok []
    else do
      let (slot, width) ← d.span x v
      return List.range' slot width

def fill (mem : Nat → V) (cells : List Nat) (value : V) : Nat → V :=
  fun j => if j ∈ cells then value else mem j

theorem fill_nil (mem : Nat → V) (value : V) : fill mem [] value = mem := by
  funext j
  simp [fill]

/-- The values read so far, with the one read at a position if there is one. -/
def look (s : Cells) (d : Draft) (i : Nat) (mem : Nat → V) (seen : List V) :
    Except Fault (List V) :=
  match d.at? i with
  | none => .ok seen
  | some x =>
    match x.uses with
    | none => .ok seen
    | some v => do return seen ++ [mem (← s.source x v)]

/-- The cells after a position is done, if it writes the value. -/
def update (s : Cells) (d : Draft) (i : Nat) (value : V) (mem : Nat → V) :
    Except Fault (Nat → V) :=
  match d.at? i with
  | none => .ok mem
  | some x =>
    match x.defines with
    | none => .ok mem
    | some v => do return fill mem (← s.filled x v) value

/-- Values read along a path, the last position included. What is written may depend on all
values read so far and on the steps that are left; an exception leaves before anything is
written. -/
def reads (s : Cells) (d : Draft) (supply : Nat → List V → V) :
    List Hop → Nat → (Nat → V) → List V → Except Fault (List V)
  | [], i, mem, seen => s.look d i mem seen
  | hop :: rest, i, mem, seen => do
    let seen ← s.look d i mem seen
    let mem ← if hop.thrown then .ok mem else s.update d i (supply rest.length seen) mem
    s.reads d supply rest hop.there mem seen

end Cells

namespace Draft

variable {d d' : Draft} {l : Liveness} {V : Type}

/-- A draft with slots for all that lives in another one, and with its stores decided. -/
structure Allocated (d : Draft) (l : Liveness) (d' : Draft) : Prop where
  id : d'.id = d.id
  marked : ∀ i, d'.at? i = (d.at? i).map (·.marked l i)
  size : d'.locals.size = d.locals.size
  kind : ∀ (v : Nat) (info : LocalInfo), d.locals[v]? = some info →
    ∃ info', d'.locals[v]? = some info' ∧ info'.kind = info.kind
  served : ∀ (v : Nat) (info : LocalInfo) (i : Nat), d'.locals[v]? = some info →
    (l.live v).contains i = true → info.slot ≠ none
  apart : ∀ (v w : Nat) (lv lw : LocalInfo) (j i : Nat), v ≠ w → d'.locals[v]? = some lv →
    d'.locals[w]? = some lw → lv.Occupies j → lw.Occupies j →
    ¬ ((l.live v).contains i = true ∧ (l.live w).contains i = true)

/-- On entry to a position, every slot of a live local has the value of the local. -/
def Agree (d : Draft) (l : Liveness) (i : Nat) (vars slots : Nat → V) : Prop :=
  ∀ (v : Nat) (info : LocalInfo) (j : Nat), d.locals[v]? = some info →
    (l.entryOf v).contains i = true → info.Occupies j → slots j = vars v

theorem at?_markDeadStores (nodup : d.order.toList.Nodup) (i : Nat) :
    (d.markDeadStores l).at? i = (d.at? i).map (·.marked l i) := by
  have order : (d.markDeadStores l).order = d.order := by rw [markDeadStores_eq]
  unfold at?
  rw [order]
  cases found : d.order.toList[i]? with
  | none => rfl
  | some n =>
      simp only [Option.map_some]
      rw [instructionAt_markDeadStores l nodup found]

theorem fixed_occupies {info : LocalInfo} (slot : UInt16) (kept : info.slot = some slot) {j : Nat}
    (h : info.Occupies j) : slot.toNat ≤ j ∧ j < slot.toNat + info.kind.width := by
  obtain ⟨s, same, low, high⟩ := h
  rw [kept] at same
  cases same
  exact ⟨low, high⟩

open Allocation in
theorem allocated_of_allocateSlots {n : Nat} {frame : UInt16} (valid : d.Valid)
    (ranged : l.Ranged n d.locals.size) (fixedApart : d.FixedApart l)
    (h : allocateSlots l d = (.ok frame, d')) : Allocated d l (d'.markDeadStores l) := by
  obtain ⟨same, moved⟩ := allocateSlots_reslotted h
  obtain ⟨served, apart⟩ := allocateSlots_packed valid.fixed ranged h
  have locals : (d'.markDeadStores l).locals = d'.locals := by rw [markDeadStores_eq]
  refine ⟨?_, ?_, locals.symm ▸ moved.size, ?_, ?_, ?_⟩
  · rw [markDeadStores_eq, same]
  · intro i
    rw [at?_markDeadStores (valid.allocateSlots h).nodup, same]
    rfl
  · intro v info stored
    rw [locals]
    obtain ⟨slot, after, -⟩ := moved.info v info stored
    exact ⟨_, after, rfl⟩
  · rw [locals]
    exact served
  · rw [locals]
    intro v w lv lw j i distinct foundV foundW occV occW
    by_cases free : lv.fixedSlot = none ∨ lw.fixedSlot = none
    · exact apart v w lv lw j i distinct foundV foundW free occV occW
    · -- Two fixed slots are where the caller put them, so they overlap in the draft itself.
      rw [not_or] at free
      obtain ⟨s, fixedV⟩ := Option.ne_none_iff_exists'.mp free.1
      obtain ⟨t, fixedW⟩ := Option.ne_none_iff_exists'.mp free.2
      have after := (valid.allocateSlots h).fixed
      have rangeV := fixed_occupies s (after lv (Array.mem_of_getElem? foundV) s fixedV) occV
      have rangeW := fixed_occupies t (after lw (Array.mem_of_getElem? foundW) t fixedW) occW
      obtain ⟨oldV, beforeV, sameV, -⟩ := moved.origin foundV
      obtain ⟨oldW, beforeW, sameW, -⟩ := moved.origin foundW
      rw [sameV] at fixedV rangeV
      rw [sameW] at fixedW rangeW
      exact fixedApart v w oldV oldW s t i distinct beforeV beforeW fixedV fixedW
        (Nat.lt_of_le_of_lt rangeV.1 rangeW.2) (Nat.lt_of_le_of_lt rangeW.1 rangeV.2)

theorem width_pos (kind : LocalKind) : 0 < kind.width := by
  cases kind <;> decide

theorem slotOf_eq_ok {v : Local} {info : LocalInfo} {slot : UInt16}
    (stored : d.locals[v.index]? = some info) (given : info.slot = some slot) :
    d.slotOf v = .ok slot := by
  obtain ⟨name, type, fixedSlot, last⟩ := info
  cases given
  simp only [slotOf, stored]

theorem moved?_marked (x : Instruction) (i : Nat) : (x.marked l i).moved? = x.moved? := by
  cases x <;> rfl

theorem moved?_accessed {x : Instruction} {v : Local} {m : Local × LocalKind}
    (moves : x.moved? = some m) (accessed : x.uses = some v ∨ x.defines = some v) : m.1 = v := by
  cases x with
  | load source kind =>
      cases moves
      rcases accessed with h | h <;> cases h
      rfl
  | store target kind discard =>
      cases moves
      rcases accessed with h | h <;> cases h
      rfl
  | _ => cases moves

theorem Allocated.inside (a : Allocated d l d') {w : Nat} {info : LocalInfo}
    (stored : d'.locals[w]? = some info) : w < d.locals.size :=
  a.size ▸ (Array.getElem?_eq_some_iff.mp stored).1

/-- An access to a live local is to all of the slots that the local has. -/
theorem Allocated.span_eq (a : Allocated d l d') (valid : d.Valid) (kinds : d.KindsMatch) {i : Nat}
    {x : Instruction} {v : Local} (here : d.at? i = some x)
    (accessed : x.uses = some v ∨ x.defines = some v)
    (live : (l.live v.index).contains i = true) :
    ∃ info slot, d'.locals[v.index]? = some info ∧ info.slot = some slot ∧
      d'.span (x.marked l i) v = .ok (slot.toNat, info.kind.width) := by
  obtain ⟨n, placed, rfl⟩ := Option.map_eq_some_iff.mp here
  have own : d.OwnsLocal v := by
    rcases accessed with uses | defines
    · exact (valid.owns n).uses v uses
    · exact (valid.owns n).defines v defines
  have stored := Array.getElem?_eq_getElem own.2
  obtain ⟨info, stored', kind⟩ := a.kind v.index _ stored
  obtain ⟨slot, given⟩ := Option.ne_none_iff_exists'.mp (a.served v.index info i stored' live)
  refine ⟨info, slot, stored', given, ?_⟩
  have known : d'.localInfo v = .ok info := localInfo_eq_ok.mpr ⟨own.1.trans a.id.symm, stored'⟩
  have agreed : ((d.instructionAt n).moved?.map (·.2)).getD info.kind = info.kind := by
    cases moves : (d.instructionAt n).moved? with
    | none => rfl
    | some m =>
        have same := moved?_accessed moves accessed
        have matched := kinds n (List.mem_of_getElem? placed) m moves
        rw [same] at matched
        exact (matched _ stored).trans kind.symm
  unfold span
  rw [known, slotOf_eq_ok stored' given, moved?_marked]
  change Except.ok (slot.toNat,
    (((d.instructionAt n).moved?.map (·.2)).getD info.kind).width) = _
  rw [agreed]

theorem Edge.here {i j : Nat} (edge : d.Edge i j) : ∃ x, d.at? i = some x := by
  cases edge with
  | next here => exact ⟨_, here⟩
  | jump here => exact ⟨_, here⟩
  | ret here => exact ⟨_, here⟩

theorem Throws.here {i j : Nat} (throws : d.Throws i j) : ∃ x, d.at? i = some x := by
  obtain ⟨h, -, start, stop, -, placed, -, high, -⟩ := throws
  have inside : i < d.order.toList.length :=
    Nat.lt_trans high (List.getElem?_eq_some_iff.mp placed.2).1
  exact ⟨_, by rw [at?, List.getElem?_eq_getElem inside, Option.map_some]⟩

section Run

variable {f : Flow} {i j : Nat} {x : Instruction} {vars slots : Nat → V} (upper : Bool)

theorem contains_live_of_entry {v : Nat} (inside : v < d.locals.size)
    (h : ((Liveness.ofFlow f d.locals.size).entryOf v).contains i = true) :
    ((Liveness.ofFlow f d.locals.size).live v).contains i = true := by
  rw [Liveness.contains_live inside, h, Bool.true_or]

theorem contains_live_of_exit {v : Nat} (inside : v < d.locals.size)
    (h : ((Liveness.ofFlow f d.locals.size).exitOf v).contains i = true) :
    ((Liveness.ofFlow f d.locals.size).live v).contains i = true := by
  rw [Liveness.contains_live inside, h, Bool.or_true]

/-- Where the cells agree, the same value is read. -/
theorem Allocated.look_eq (valid : d.Valid) (flow : d.flow = .ok f) (kinds : d.KindsMatch)
    (a : Allocated d (.ofFlow f d.locals.size) d')
    (agree : Agree d' (.ofFlow f d.locals.size) i vars slots) (seen : List V) :
    ∃ seen', Cells.byLocal.look d i vars seen = .ok seen' ∧
      (Cells.bySlot d' upper).look d' i slots seen = .ok seen' := by
  unfold Cells.look
  rw [a.marked]
  cases here : d.at? i with
  | none => exact ⟨seen, rfl, rfl⟩
  | some x =>
      simp only [Option.map_some, Instruction.uses_marked]
      cases uses : x.uses with
      | none => exact ⟨seen, rfl, rfl⟩
      | some v =>
          have entry := live_of_uses valid flow here uses
          have inside : v.index < d.locals.size := by
            obtain ⟨n, -, rfl⟩ := Option.map_eq_some_iff.mp here
            exact ((valid.owns n).uses v uses).2
          obtain ⟨info, slot, stored, given, spanned⟩ := a.span_eq valid kinds here (.inl uses)
            (contains_live_of_entry inside entry)
          have room := width_pos info.kind
          have occupied : info.Occupies
              (slot.toNat + if upper then info.kind.width - 1 else 0) := by
            refine ⟨slot, given, by omega, ?_⟩
            split <;> omega
          refine ⟨seen ++ [vars v.index], rfl, ?_⟩
          simp only [Cells.bySlot, spanned]
          rw [← agree v.index info _ stored entry occupied]
          rfl

/-- A store that is written has a reader, and so has every other write. -/
theorem live_of_written (valid : d.Valid) (flow : d.flow = .ok f) {v : Local}
    (here : d.at? i = some x) (defines : x.defines = some v)
    (written : (x.marked (.ofFlow f d.locals.size) i).isDiscarded = false) :
    ((Liveness.ofFlow f d.locals.size).live v.index).contains i = true := by
  have inside : v.index < d.locals.size := by
    obtain ⟨n, -, rfl⟩ := Option.map_eq_some_iff.mp here
    exact ((valid.owns n).defines v defines).2
  cases x with
  | store target kind discard =>
      cases defines
      apply contains_live_of_exit inside
      rw [Instruction.marked, Instruction.isDiscarded, Bool.not_eq_false'] at written
      exact written
  | increment target amount =>
      cases defines
      exact contains_live_of_entry inside (live_of_uses valid flow here rfl)
  | _ => cases defines

theorem exit_of_discarded {v : Local} (defines : x.defines = some v)
    (dropped : (x.marked l i).isDiscarded = true) : (l.exitOf v.index).contains i = false := by
  cases x with
  | store target kind discard =>
      cases defines
      rw [Instruction.marked, Instruction.isDiscarded, Bool.not_eq_true'] at dropped
      exact dropped
  | increment target amount => cases dropped
  | _ => cases defines

/-- A local that is needed later and not written here was in agreement before. -/
theorem Allocated.agree_through (valid : d.Valid) (flow : d.flow = .ok f)
    (a : Allocated d (.ofFlow f d.locals.size) d') (here : d.at? i = some x) (edge : d.Edge i j)
    (agree : Agree d' (.ofFlow f d.locals.size) i vars slots) {w k : Nat} {info : LocalInfo}
    (stored : d'.locals[w]? = some info)
    (live : ((Liveness.ofFlow f d.locals.size).entryOf w).contains j = true)
    (occupied : info.Occupies k) (other : ∀ v, x.defines = some v → v.index ≠ w) :
    ((Liveness.ofFlow f d.locals.size).live w).contains i = true ∧ slots k = vars w := by
  have inside := a.inside stored
  have entry := live_through valid flow here inside edge live other
  exact ⟨contains_live_of_entry inside entry, agree w info k stored entry occupied⟩

/-- A value that is dropped is not needed. -/
theorem Allocated.agree_dropped (valid : d.Valid) (flow : d.flow = .ok f)
    (a : Allocated d (.ofFlow f d.locals.size) d') (here : d.at? i = some x) (edge : d.Edge i j)
    (agree : Agree d' (.ofFlow f d.locals.size) i vars slots) {v : Local}
    (defines : x.defines = some v)
    (dropped : (x.marked (.ofFlow f d.locals.size) i).isDiscarded = true) (value : V) :
    Agree d' (.ofFlow f d.locals.size) j (Cells.fill vars [v.index] value) slots := by
  intro w info k stored live occupied
  have other : v.index ≠ w := by
    rintro rfl
    have exit := live_exit valid flow here (a.inside stored) edge live
    rw [exit_of_discarded defines dropped] at exit
    exact Bool.false_ne_true exit
  rw [(a.agree_through valid flow here edge agree stored live occupied
    (by simpa [defines] using other)).2]
  simp [Cells.fill, Ne.symm other]

/-- A value that is written goes to slots of its own. -/
theorem Allocated.agree_written (valid : d.Valid) (flow : d.flow = .ok f)
    (a : Allocated d (.ofFlow f d.locals.size) d') (here : d.at? i = some x) (edge : d.Edge i j)
    (agree : Agree d' (.ofFlow f d.locals.size) i vars slots) {v : Local}
    (defines : x.defines = some v)
    (alive : ((Liveness.ofFlow f d.locals.size).live v.index).contains i = true)
    {own : LocalInfo} {slot : UInt16} (storedV : d'.locals[v.index]? = some own)
    (given : own.slot = some slot) (value : V) :
    Agree d' (.ofFlow f d.locals.size) j (Cells.fill vars [v.index] value)
      (Cells.fill slots (List.range' slot.toNat own.kind.width) value) := by
  intro w info k stored live occupied
  by_cases same : v.index = w
  · subst same
    rw [storedV] at stored
    cases stored
    have range := fixed_occupies slot given occupied
    simp [Cells.fill, List.mem_range'_1, range]
  · obtain ⟨alive', value⟩ := a.agree_through valid flow here edge agree stored live occupied
      (by simpa [defines] using same)
    have free : ¬ (slot.toNat ≤ k ∧ k < slot.toNat + own.kind.width) := by
      rintro ⟨low, high⟩
      exact a.apart v.index w own info k i same storedV stored ⟨slot, given, low, high⟩ occupied
        ⟨alive, alive'⟩
    simp only [Cells.fill, List.mem_range'_1, free, if_false, value]
    simp [Ne.symm same]

/-- After an instruction is done the cells agree on all that is needed from there on. -/
theorem Allocated.update_agree (valid : d.Valid) (flow : d.flow = .ok f) (kinds : d.KindsMatch)
    (a : Allocated d (.ofFlow f d.locals.size) d') (edge : d.Edge i j)
    (agree : Agree d' (.ofFlow f d.locals.size) i vars slots) (value : V) :
    ∃ vars' slots', Cells.byLocal.update d i value vars = .ok vars' ∧
      (Cells.bySlot d' upper).update d' i value slots = .ok slots' ∧
      Agree d' (.ofFlow f d.locals.size) j vars' slots' := by
  obtain ⟨x, here⟩ := edge.here
  unfold Cells.update
  rw [a.marked, here]
  simp only [Option.map_some, Instruction.defines_marked]
  cases defines : x.defines with
  | none =>
      refine ⟨vars, slots, rfl, rfl, ?_⟩
      intro w info k stored live occupied
      exact (a.agree_through valid flow here edge agree stored live occupied
        (by simp [defines])).2
  | some v =>
      refine ⟨Cells.fill vars [v.index] value, ?_⟩
      cases dropped : (x.marked (Liveness.ofFlow f d.locals.size) i).isDiscarded with
      | true =>
          refine ⟨slots, rfl, ?_, a.agree_dropped valid flow here edge agree defines dropped value⟩
          simp [Cells.bySlot, dropped, Cells.fill_nil, bind, Except.bind, pure, Except.pure]
      | false =>
          have alive := live_of_written valid flow here defines dropped
          obtain ⟨own, slot, stored, given, spanned⟩ :=
            a.span_eq valid kinds here (.inr defines) alive
          refine ⟨Cells.fill slots (List.range' slot.toNat own.kind.width) value, rfl, ?_,
            a.agree_written valid flow here edge agree defines alive stored given value⟩
          simp [Cells.bySlot, dropped, spanned, bind, Except.bind, pure, Except.pure]

/-- An exception leaves the cells alone, and its handler needs nothing new. -/
theorem Allocated.throw_agree (valid : d.Valid) (flow : d.flow = .ok f)
    (a : Allocated d (.ofFlow f d.locals.size) d') (throws : d.Throws i j)
    (agree : Agree d' (.ofFlow f d.locals.size) i vars slots) :
    Agree d' (.ofFlow f d.locals.size) j vars slots := by
  obtain ⟨x, here⟩ := throws.here
  intro w info k stored live occupied
  have entry := live_before_throw valid flow here (a.inside stored) throws live
  exact agree w info k stored entry occupied

/-- Along every path that begins in agreement the same values are read. -/
theorem Allocated.reads_eq (valid : d.Valid) (flow : d.flow = .ok f) (kinds : d.KindsMatch)
    (a : Allocated d (.ofFlow f d.locals.size) d') (supply : Nat → List V → V) {path : List Hop}
    (isPath : d.IsPath i path) (agree : Agree d' (.ofFlow f d.locals.size) i vars slots)
    (seen : List V) :
    ∃ all, Cells.byLocal.reads d supply path i vars seen = .ok all ∧
      (Cells.bySlot d' upper).reads d' supply path i slots seen = .ok all := by
  induction path generalizing i vars slots seen with
  | nil => exact a.look_eq upper valid flow kinds agree seen
  | cons hop rest ih =>
      obtain ⟨thrown, j⟩ := hop
      obtain ⟨step, later⟩ := isPath
      obtain ⟨seen', lookVars, lookSlots⟩ :=
        a.look_eq upper valid flow kinds agree seen
      cases thrown with
      | true =>
          obtain ⟨all, vs, ss⟩ := ih later (a.throw_agree valid flow step agree) seen'
          exact ⟨all, bind_eq_ok.mpr ⟨seen', lookVars, vs⟩, bind_eq_ok.mpr ⟨seen', lookSlots, ss⟩⟩
      | false =>
          obtain ⟨vars', slots', updateVars, updateSlots, agree'⟩ :=
            a.update_agree upper valid flow kinds step agree (supply rest.length seen')
          obtain ⟨all, vs, ss⟩ := ih later agree' seen'
          exact ⟨all,
            bind_eq_ok.mpr ⟨seen', lookVars, bind_eq_ok.mpr ⟨vars', updateVars, vs⟩⟩,
            bind_eq_ok.mpr ⟨seen', lookSlots, bind_eq_ok.mpr ⟨slots', updateSlots, ss⟩⟩⟩

end Run

/-- Slots and dropped stores change nothing that is read. A draft whose labels have places can be
analysed. If its loads and stores have the kinds of their locals, and locals with overlapping
fixed slots never live together, then after allocation and marking every path from the first
position reads from slots what it would read from one cell for each local. -/
theorem reads_allocateSlots (reachable : d.Reachable) (placed : d.LabelsPlaced)
    (kinds : d.KindsMatch) :
    ∃ f, d.flow = .ok f ∧ ∀ (frame : UInt16) (slotted : Draft),
      d.FixedApart (.ofFlow f d.locals.size) →
      allocateSlots (.ofFlow f d.locals.size) d = (.ok frame, slotted) →
      ∀ (V : Type) (supply : Nat → List V → V) (path : List Hop) (vars slots : Nat → V)
        (upper : Bool),
        d.IsPath 0 path → Agree slotted (.ofFlow f d.locals.size) 0 vars slots →
        let final := slotted.markDeadStores (.ofFlow f d.locals.size)
        ∃ seen, Cells.byLocal.reads d supply path 0 vars [] = .ok seen ∧
          (Cells.bySlot final upper).reads final supply path 0 slots [] = .ok seen := by
  have valid := reachable.valid
  obtain ⟨f, flow⟩ := exists_flow valid placed
  refine ⟨f, flow, ?_⟩
  intro frame slotted fixedApart allocated V supply path vars slots upper isPath agree
  have a := allocated_of_allocateSlots valid (Liveness.ranged_ofFlow f d.locals.size) fixedApart
    allocated
  have agree' : Agree (slotted.markDeadStores (.ofFlow f d.locals.size))
      (.ofFlow f d.locals.size) 0 vars slots := by
    rw [markDeadStores_eq]
    exact agree
  exact a.reads_eq upper valid flow kinds supply isPath agree' []

/-- A loop that counts in one local, with two others that are live in parts of it, one of them with
two slots, a store without a reader, and a handler around all of it. -/
def looping : Draft :=
  let d := (empty 0).createLocal none .int none |>.2.createLocal none .long none
    |>.2.createLocal none .int none |>.2
  let d := (push (.store ⟨0, 0⟩ .int false) d).2
  let d := (placeLabel ⟨0, 1⟩ d.createLabel.2).2
  let d := (push (.store ⟨0, 1⟩ .long false) d).2
  let d := (push (.load ⟨0, 1⟩ .long) d).2
  let d := (push (.store ⟨0, 2⟩ .int false) d).2
  let d := (push (.load ⟨0, 2⟩ .int) d).2
  let d := (push (.increment ⟨0, 0⟩ 1) d).2
  let d := (push (.store ⟨0, 2⟩ .int false) d).2
  let d := (push (.branch Opcode.goto ⟨0, 1⟩) d).2
  let d := (placeLabel ⟨0, 9⟩ d.createLabel.2).2
  let d := (push (.load ⟨0, 0⟩ .int) d).2
  (addHandler ⟨⟨0, 1⟩, ⟨0, 9⟩, ⟨0, 9⟩, none⟩ d).2

/-- Once around the loop, and out of it by an exception at the first store. -/
def loopingPath : List Hop :=
  [⟨false, 1⟩, ⟨false, 2⟩, ⟨false, 3⟩, ⟨false, 4⟩, ⟨false, 5⟩, ⟨false, 6⟩, ⟨false, 7⟩, ⟨false, 8⟩,
    ⟨false, 1⟩, ⟨false, 2⟩, ⟨true, 9⟩, ⟨false, 10⟩]

theorem isPath_loopingPath : looping.IsPath 0 loopingPath := by
  have next : ∀ i < 8, looping.Edge i (i + 1) := by
    intro i bound
    interval_cases i <;> exact .next rfl rfl (by decide)
  have back : looping.Edge 8 1 := .jump rfl (List.mem_singleton_self (Label.mk 0 1)) ⟨rfl, rfl⟩
  have caught : looping.Throws 2 9 :=
    ⟨⟨⟨0, 1⟩, ⟨0, 9⟩, ⟨0, 9⟩, none⟩, Array.mem_of_getElem? (i := 0) rfl, 1, 9, ⟨rfl, rfl⟩,
      ⟨rfl, rfl⟩, by decide, by decide, ⟨rfl, rfl⟩⟩
  exact ⟨next 0 (by decide), next 1 (by decide), next 2 (by decide), next 3 (by decide),
    next 4 (by decide), next 5 (by decide), next 6 (by decide), next 7 (by decide), back,
    next 1 (by decide), caught, .next rfl rfl (by decide), trivial⟩

theorem reachable_looping : looping.Reachable :=
  (((((((((((((((Reachable.empty 0).createLocal none .int none).createLocal none .long
    none).createLocal none .int none).push _).createLabel.placeLabel _).push _).push _).push
    _).push _).push _).push _).push _).createLabel.placeLabel _).push _).addHandler _

theorem reads_allocateSlots_looping :
    looping.Reachable ∧ looping.LabelsPlaced ∧ looping.KindsMatch ∧
      ∃ f slotted, looping.flow = .ok f ∧ looping.FixedApart (.ofFlow f 3) ∧
        allocateSlots (.ofFlow f 3) looping = (.ok 3, slotted) ∧
        looping.IsPath 0 loopingPath ∧
        ∀ (supply : Nat → List Nat → Nat) (upper : Bool),
          let final := slotted.markDeadStores (.ofFlow f 3)
          ∃ seen, Cells.byLocal.reads looping supply loopingPath 0 (fun _ => 0) [] = .ok seen ∧
            (Cells.bySlot final upper).reads final supply loopingPath 0 (fun _ => 0) [] =
              .ok seen := by
  have placed : looping.LabelsPlaced := ⟨by decide, by decide⟩
  have kinds : looping.KindsMatch := by
    unfold KindsMatch
    decide
  obtain ⟨f, flow, same⟩ := reads_allocateSlots reachable_looping placed kinds
  have free : ∀ l ∈ looping.locals, l.fixedSlot = none := by decide
  have fixedApart : looping.FixedApart (.ofFlow f 3) := by
    intro v w lv lw s t i _ found _ fixed
    rw [free lv (Array.mem_of_getElem? found)] at fixed
    cases fixed
  have allocated : allocateSlots (.ofFlow f 3) looping =
      (.ok 3, (allocateSlots (.ofFlow f 3) looping).2) := by
    have sized : looping.flow.toOption.map
        (fun f => (allocateSlots (.ofFlow f 3) looping).1) = some (.ok 3) := by decide +kernel
    rw [flow] at sized
    exact Prod.ext (Option.some.inj sized) rfl
  exact ⟨reachable_looping, placed, kinds, f, _, flow, fixedApart, allocated, isPath_loopingPath,
    fun supply upper => same 3 _ fixedApart allocated Nat supply loopingPath _ _ upper
      isPath_loopingPath fun _ _ _ _ _ _ => rfl⟩

end Draft

end JvmAssembly
