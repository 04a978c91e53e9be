import Mathlib
import JvmAssembly.Draft.Resolve
import JvmAssembly.Proofs.Draft.DeadStores
import JvmAssembly.Proofs.Draft.Slots
import JvmAssembly.Proofs.Draft.Widening

/-!
Drafts as they come about: from an empty one, by edits and by resolving, in any order and whether
or not these succeed. All of them are valid.
-/
namespace JvmAssembly.Draft

inductive Reachable : Draft → Prop
  | empty (id : Nat) : Reachable (empty id)
  | createLabel {d} : Reachable d → Reachable d.createLabel.2
  | placeLabel {d} (label : Label) : Reachable d → Reachable (placeLabel label d).2
  | placeLabelAfter {d} (anchor : NodeId) (label : Label) :
      Reachable d → Reachable (placeLabelAfter anchor label d).2
  | push {d} (i : Instruction) : Reachable d → Reachable (push i d).2
  | insertAfter {d} (anchor : NodeId) (i : Instruction) :
      Reachable d → Reachable (insertAfter anchor i d).2
  | remove {d} (node : NodeId) : Reachable d → Reachable (remove node d).2
  | replace {d} (node : NodeId) (i : Instruction) : Reachable d → Reachable (replace node i d).2
  | createLocal {d} (name : Option String) (type : FieldType) (slot : Option UInt16) :
      Reachable d → Reachable (d.createLocal name type slot).2
  | addHandler {d} (h : Handler) : Reachable d → Reachable (addHandler h d).2
  | markLine {d} (line : UInt16) : Reachable d → Reachable (d.markLine line)
  | trackLocals {d} (track : Bool) : Reachable d → Reachable (d.trackLocals track)
  | reserveSlots {d} (slots : UInt16) : Reachable d → Reachable (d.reserveSlots slots)
  | resolve {d} (pool : Pool) : Reachable d → Reachable (d.resolve pool).2

open Allocation Layout Layout.Pass

variable {d d' : Draft}

theorem Valid.reslot (valid : d.Valid) {locals : Array LocalInfo}
    (moved : Reslotted d.locals locals) : { d with locals }.Valid := by
  refine valid.relocate (Nat.le_of_eq moved.size.symm) ?_
  intro info member slot fixed
  obtain ⟨v, stored⟩ := Array.mem_iff_getElem?.mp member
  obtain ⟨old, before, same, kept⟩ := moved.origin stored
  rw [same] at fixed
  have pinned : old.fixedSlot = some slot := fixed
  rw [kept (by rw [pinned]; exact Option.some_ne_none slot)]
  exact valid.fixed old (Array.mem_of_getElem? before) slot fixed

theorem Valid.allocateSlots (valid : d.Valid) {liveness : Liveness} {result : Except Fault UInt16}
    (h : allocateSlots liveness d = (result, d')) : d'.Valid := by
  obtain ⟨same, moved⟩ := allocateSlots_reslotted h
  rw [same]
  exact valid.reslot moved

/-- The ways in which resolving can end. -/
inductive Resolution (pool : Pool) (d : Draft) : Except Fault Code × Draft → Prop
  | unplaced {fault : Fault} : d.flow = .error fault → Resolution pool d (.error fault, d)
  | crowded {f : Flow} {fault : Fault} {slotted : Draft} : d.flow = .ok f →
      allocateSlots (.ofFlow f d.locals.size) d = (.error fault, slotted) →
      Resolution pool d (.error fault, slotted)
  | unbalanced {f : Flow} {frame : UInt16} {fault : Fault} {slotted : Draft} : d.flow = .ok f →
      allocateSlots (.ofFlow f d.locals.size) d = (.ok frame, slotted) →
      f.maxStack = .error fault →
      Resolution pool d (.error fault, slotted.markDeadStores (.ofFlow f d.locals.size))
  | unwritten {f : Flow} {frame depth : UInt16} {fault : Fault} {slotted laid : Draft} :
      d.flow = .ok f → allocateSlots (.ofFlow f d.locals.size) d = (.ok frame, slotted) →
      f.maxStack = .ok depth →
      (slotted.markDeadStores (.ofFlow f d.locals.size)).layout pool = (.error fault, laid) →
      Resolution pool d (.error fault, laid)
  | assembled {f : Flow} {frame depth : UInt16} {slotted laid : Draft} {l : Layout}
      {result : Except Fault Code} :
      d.flow = .ok f → allocateSlots (.ofFlow f d.locals.size) d = (.ok frame, slotted) →
      f.maxStack = .ok depth →
      (slotted.markDeadStores (.ofFlow f d.locals.size)).layout pool = (.ok l, laid) →
      laid.assemble pool l depth frame
        (if (slotted.markDeadStores (.ofFlow f d.locals.size)).tracksLocals then
          (slotted.markDeadStores (.ofFlow f d.locals.size)).liveRanges (.ofFlow f d.locals.size)
        else []) = result →
      Resolution pool d (result, laid)

theorem resolution (pool : Pool) (d : Draft) : Resolution pool d (d.resolve pool) := by
  unfold Draft.resolve
  split
  · rename_i fault failed
    exact .unplaced failed
  · rename_i f flow
    dsimp only
    split
    · rename_i fault slotted failed
      exact .crowded flow failed
    · rename_i frame slotted allocated
      split
      · rename_i fault failed
        exact .unbalanced flow allocated failed
      · rename_i depth measured
        split
        · rename_i fault laid failed
          exact .unwritten flow allocated measured failed
        · rename_i l laid layout
          exact .assembled flow allocated measured layout rfl

/-- Whatever comes of resolving, all it did was to allocate slots, decide stores and lay out. -/
theorem resolve_induction {P : Draft → Prop} (pool : Pool) (start : P d)
    (slots : ∀ liveness result slotted, allocateSlots liveness d = (result, slotted) → P slotted)
    (stores : ∀ liveness x, P x → P (x.markDeadStores liveness))
    (jumps : ∀ x result laid, P x → x.layout pool = (result, laid) → P laid) :
    P (d.resolve pool).2 := by
  have ends := resolution pool d
  generalize d.resolve pool = out at ends ⊢
  cases ends with
  | unplaced failed => exact start
  | crowded flow failed => exact slots _ _ _ failed
  | unbalanced flow allocated failed => exact stores _ _ (slots _ _ _ allocated)
  | unwritten flow allocated measured failed =>
      exact jumps _ _ _ (stores _ _ (slots _ _ _ allocated)) failed
  | assembled flow allocated measured layout assembled =>
      exact jumps _ _ _ (stores _ _ (slots _ _ _ allocated)) layout

/-- A draft is resolved exactly if each of the steps succeeds. -/
theorem resolve_eq_ok {pool : Pool} {c : Code} :
    d.resolve pool = (.ok c, d') ↔
      ∃ (f : Flow) (frame depth : UInt16) (slotted : Draft) (l : Layout), d.flow = .ok f ∧
        allocateSlots (.ofFlow f d.locals.size) d = (.ok frame, slotted) ∧
        f.maxStack = .ok depth ∧
        (slotted.markDeadStores (.ofFlow f d.locals.size)).layout pool = (.ok l, d') ∧
        d'.assemble pool l depth frame
          (if (slotted.markDeadStores (.ofFlow f d.locals.size)).tracksLocals then
            (slotted.markDeadStores (.ofFlow f d.locals.size)).liveRanges
              (.ofFlow f d.locals.size)
          else []) = .ok c := by
  have ends := resolution pool d
  generalize d.resolve pool = out at ends ⊢
  constructor
  · rintro rfl
    cases ends with
    | assembled flow allocated measured layout assembled =>
        exact ⟨_, _, _, _, _, flow, allocated, measured, layout, assembled⟩
  · rintro ⟨f, frame, depth, slotted, l, flow, allocated, measured, layout, assembled⟩
    -- Each step has the outcome it is known to have, so no other ending is possible.
    cases ends with
    | unplaced failed => cases flow.symm.trans failed
    | crowded flow' failed =>
        cases flow.symm.trans flow'
        cases allocated.symm.trans failed
    | unbalanced flow' allocated' failed =>
        cases flow.symm.trans flow'
        cases measured.symm.trans failed
    | unwritten flow' allocated' measured' failed =>
        cases flow.symm.trans flow'
        cases allocated.symm.trans allocated'
        cases layout.symm.trans failed
    | assembled flow' allocated' measured' layout' assembled' =>
        cases flow.symm.trans flow'
        cases allocated.symm.trans allocated'
        cases measured.symm.trans measured'
        cases layout.symm.trans layout'
        rw [← assembled', assembled]

theorem code_assemble {pool : Pool} {l : Layout} {depth frame : UInt16} {ranges : List LiveRange}
    {c : Code} (h : d.assemble pool l depth frame ranges = .ok c) : c.code = l.code := by
  obtain ⟨handlers, -, rest⟩ := bind_eq_ok.mp h
  obtain ⟨locals, -, last⟩ := bind_eq_ok.mp rest
  cases last
  rfl

theorem Valid.resolve (valid : d.Valid) (pool : Pool) : (d.resolve pool).2.Valid := by
  refine resolve_induction pool valid ?_ ?_ ?_
  · intro liveness result slotted allocated
    exact valid.allocateSlots allocated
  · intro liveness x before
    exact before.markDeadStores liveness
  · intro x result laid before layout
    exact valid_widened before (layout_widens before layout)

theorem Reachable.valid (reachable : d.Reachable) : d.Valid := by
  induction reachable with
  | empty id => exact valid_empty id
  | createLabel _ ih => exact ih.createLabel
  | placeLabel label _ ih => exact valid_placeLabel ih label
  | placeLabelAfter anchor label _ ih => exact valid_placeLabelAfter ih anchor label
  | push i _ ih => exact valid_push ih i
  | insertAfter anchor i _ ih => exact valid_insertAfter ih anchor i
  | remove node _ ih => exact valid_remove ih node
  | replace node i _ ih => exact valid_replace ih node i
  | createLocal name type slot _ ih => exact ih.createLocal name type slot
  | addHandler h _ ih => exact valid_addHandler ih h
  | markLine line _ ih => exact ih.markLine line
  | trackLocals track _ ih => exact ih.annotate track _ ih.handlers ih.lines
  | reserveSlots slots _ ih => exact ih.annotate _ slots ih.handlers ih.lines
  | resolve pool _ ih => exact ih.resolve pool

end JvmAssembly.Draft
