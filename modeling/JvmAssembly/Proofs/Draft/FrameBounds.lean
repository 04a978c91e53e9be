import Mathlib
import JvmAssembly.Proofs.Draft.Faults
import JvmAssembly.Proofs.Draft.FirstFit
import JvmAssembly.Proofs.Draft.Stability

/-!
Accesses to locals stay in the frame. A local that is read is live before, a store that is not
discarded has a reader behind it, and every local that is live somewhere has slots below the size
of the frame. Widening jumps accesses no local, so each instruction that is written has a slot.
-/
namespace JvmAssembly.Draft

/-- What placed instructions read and write of locals lies in a frame of the size. -/
def Framed (size : Nat) (d : Draft) : Prop :=
  ∀ n ∈ d.order.toList, ∀ v width, (d.instructionAt n).access? = some (v, width) →
    ∃ slot, d.slotOf v = .ok slot ∧ slot.toNat + width ≤ size

/-- The locals that placed instructions access have all of their slots in a frame of the size. -/
def Roomy (size : Nat) (d : Draft) : Prop :=
  ∀ n ∈ d.order.toList, ∀ v width, (d.instructionAt n).access? = some (v, width) →
    ∃ info slot, d.locals[v.index]? = some info ∧ info.slot = some slot ∧
      slot.toNat + info.kind.width ≤ size

variable {d d' : Draft} {pool : Pool} {f : Flow} {frame : UInt16}

/-- A local that is live somewhere has slots, and they lie in the frame. -/
theorem exists_slot {liveness : Liveness} {n v i : Nat} {info : LocalInfo} (valid : d.Valid)
    (ranged : liveness.Ranged n d.locals.size)
    (allocated : allocateSlots liveness d = (.ok frame, d')) (stored : d'.locals[v]? = some info)
    (live : (liveness.live v).contains i = true) :
    ∃ slot, info.slot = some slot ∧ slot.toNat + info.kind.width ≤ frame.toNat := by
  -- Slots and frame are those of the plan, and the plan has a slot for all that live.
  obtain ⟨plan, fit⟩ := exists_firstFit d.locals liveness
  obtain ⟨size, greatest⟩ := exists_size d.reservedSlots.toNat d.locals plan
  obtain ⟨old, found, kept, -⟩ := (allocateSlots_reslotted allocated).2.origin stored
  have kind : info.kind = old.kind := by rw [kept]; rfl
  have inside := (Array.getElem?_eq_some_iff.mp found).1
  have planned : ∃ s, plan v = some s := by
    cases fixed : old.fixedSlot with
    | some slot => exact ⟨_, (fit v old found).fixed slot fixed⟩
    | none => exact ((fit v old found).served fixed).mpr ⟨i, live⟩
  obtain ⟨s, planned⟩ := planned
  have bound := greatest.2 (.inr ⟨v, old, s, found, planned, rfl⟩)
  rcases allocateSlots_planned valid.fixed ranged fit greatest with
    ⟨small, d'', allocated', slots⟩ | ⟨-, need, d'', failed⟩
  · cases allocated.symm.trans allocated'
    have given := slots v inside
    rw [firstSlot, stored, Option.bind_some, planned, Option.map_eq_some_iff] at given
    obtain ⟨slot, given, rfl⟩ := given
    refine ⟨slot, given, ?_⟩
    rw [kind, UInt16.toNat_ofNat_of_lt' (by simp [UInt16.size]; omega)]
    exact bound
  · cases allocated.symm.trans failed

/-- An instruction that is written with the slots of a local reads the local, or it is a store that
is not discarded. -/
theorem accessed {x : Instruction} {v : Local} {width : Nat} (access : x.access? = some (v, width)) :
    x.uses = some v ∨ x.defines = some v ∧ x.isDiscarded = false := by
  cases x with
  | store target kind discard =>
      cases discard with
      | true => cases access
      | false =>
          cases access
          exact .inr ⟨rfl, rfl⟩
  | load | increment | ret =>
      cases access
      exact .inl rfl
  | _ => cases access

/-- No access has more slots than its local. -/
theorem width_le {x : Instruction} {v : Local} {width : Nat} {kind : LocalKind}
    (access : x.access? = some (v, width)) (same : ∀ m ∈ x.moved?, m.2 = kind) :
    width ≤ kind.width := by
  cases x with
  | load source own =>
      cases access
      exact Nat.le_of_eq (congrArg LocalKind.width (same _ rfl))
  | store target own discard =>
      cases discard with
      | true => cases access
      | false =>
          cases access
          exact Nat.le_of_eq (congrArg LocalKind.width (same _ rfl))
  | increment | ret =>
      cases access
      exact width_pos kind
  | _ => cases access

/-- Before layout, the locals that are accessed have their slots. -/
theorem Prepared.roomy {ready : Draft} (prepared : Prepared d f frame ready) (valid : d.Valid) :
    ready.Roomy frame.toNat := by
  intro n member v width access
  obtain ⟨i, stored⟩ := List.mem_iff_getElem?.mp member
  have here : ready.at? i = some (ready.instructionAt n) := by rw [at?, stored]; rfl
  have owned : v.index < ready.locals.size := by
    rcases accessed access with uses | ⟨defines, -⟩
    · exact ((prepared.valid.owns n).uses v uses).2
    · exact ((prepared.valid.owns n).defines v defines).2
  have live : ((Liveness.ofFlow f ready.locals.size).live v.index).contains i = true := by
    rcases accessed access with uses | ⟨defines, written⟩
    · exact contains_live_of_entry owned
        (live_of_uses prepared.valid prepared.flow_ready here uses)
    -- The store was looked at when stores were marked, and was left.
    · refine live_of_written prepared.valid prepared.flow_ready here defines ?_
      rw [prepared.moved.size, prepared.marked i _ here]
      exact written
  rw [prepared.moved.size] at live
  obtain ⟨slot, given, bound⟩ := exists_slot valid (Liveness.ranged_ofFlow f d.locals.size)
    prepared.allocated (Array.getElem?_eq_getElem owned) live
  exact ⟨_, slot, Array.getElem?_eq_getElem owned, given, bound⟩

/-- What is accessed after widening was accessed before. -/
theorem access_widened {n : NodeId} {v : Local} {width : Nat} (valid : d.Valid)
    (widened : Layout.Pass.Widened d d') (member : n ∈ d'.order.toList)
    (access : (d'.instructionAt n).access? = some (v, width)) :
    n ∈ d.order.toList ∧ d'.instructionAt n = d.instructionAt n := by
  rcases Layout.Pass.instructionAt_widened widened valid n with
    ⟨same, stays⟩ | ⟨op, target, jump⟩ | label
  · exact ⟨stays member, same⟩
  · rw [jump] at access
    cases access
  · rw [label] at access
    cases access

theorem Roomy.widened {size : Nat} (roomy : d.Roomy size) (valid : d.Valid)
    (widened : Layout.Pass.Widened d d') : d'.Roomy size := by
  intro n member v width access
  obtain ⟨before, same⟩ := access_widened valid widened member access
  rw [same] at access
  rw [Layout.Pass.locals_widened widened]
  exact roomy n before v width access

/-- No instruction fails to be written for want of a slot. -/
theorem Roomy.not_unwritable {size : Nat} (roomy : d.Roomy size) (v : Local) :
    ¬ d.Unwritable pool (.unassignedLocal v) := by
  rintro ⟨n, member, offsets, offset, failed⟩
  rcases encode_eq_error failed with ⟨ref, -, unknown⟩ | ⟨w, width, access, unassigned⟩
  · cases pool.failsWith_indexOf ref _ unknown
  · obtain ⟨info, slot, stored, given, -⟩ := roomy n member w width access
    rw [slotOf_eq_ok stored given] at unassigned
    cases unassigned

/-- Whatever else goes wrong, every local that is accessed has a slot. -/
theorem resolve_ne_unassignedLocal (valid : d.Valid) (v : Local) :
    (d.resolve pool).1 ≠ .error (.unassignedLocal v) := by
  intro unassigned
  have ends := resolution pool d
  generalize d.resolve pool = out at ends unassigned
  cases ends with
  | unplaced failed =>
      cases unassigned
      obtain ⟨label, -, unplaced⟩ := failsWith_flow d _ failed
      cases positionOf_eq_error unplaced
  | @crowded f fault slotted flow failed =>
      cases unassigned
      have slots := failsWith_allocateSlots (.ofFlow f d.locals.size) d
      rw [failed] at slots
      cases slots _ rfl
  | @unbalanced f frame fault slotted flow allocated failed =>
      cases unassigned
      cases f.failsWith_maxStack _ failed
  | unwritten flow allocated measured failed =>
      cases unassigned
      have before := prepared valid flow allocated
      rcases Layout.layout_eq_error before.valid failed with structural | ⟨x, widened, unwritable⟩
      · cases structural
      · exact ((before.roomy valid).widened before.valid widened).not_unwritable v unwritable
  | assembled flow allocated measured layout assembled =>
      cases failsWith_assemble _ _ _ _ _ _ (assembled.trans unassigned)

namespace Finished

variable {ready : Draft} {up down : Nat → Nat} {l : Layout} {c : Code}
  (finished : Finished pool d f frame ready up down d' l c)

include finished

/-- What is left of loads and stores is of the kinds of the locals. -/
theorem width_le_kind (kinds : d.KindsMatch) {n : NodeId} {v : Local} {width : Nat}
    {info : LocalInfo} (member : n ∈ ready.order.toList)
    (access : (ready.instructionAt n).access? = some (v, width))
    (stored : ready.locals[v.index]? = some info) : width ≤ info.kind.width := by
  obtain ⟨old, found, kept, -⟩ := finished.prepared.moved.origin stored
  have kind : info.kind = old.kind := by rw [kept]; rfl
  have moves : (ready.instructionAt n).moved? = (d.instructionAt n).moved? := by
    rcases finished.stores n with same | ⟨i, marked⟩
    · rw [same]
    · rw [marked, moved?_marked]
  refine width_le access fun m moved => ?_
  have same : m.1 = v := by
    refine moved?_accessed moved ?_
    exact (accessed access).imp_right And.left
  rw [finished.prepared.order] at member
  rw [moves] at moved
  rw [kind]
  exact kinds n member m moved old (by rw [same]; exact found)

theorem framed (valid : d.Valid) (kinds : d.KindsMatch) : d'.Framed frame.toNat := by
  have before := finished.prepared
  intro n member v width access
  obtain ⟨placed, same⟩ := access_widened before.valid finished.widened member access
  rw [same] at access
  obtain ⟨info, slot, stored, given, bound⟩ := before.roomy valid n placed v width access
  have fits := finished.width_le_kind kinds placed access stored
  rw [← Layout.Pass.locals_widened finished.widened] at stored
  exact ⟨slot, slotOf_eq_ok stored given, by omega⟩

theorem maxLocals_eq : c.maxLocals = frame := by
  obtain ⟨depth, assembled⟩ := finished.assembled
  obtain ⟨handlers, rows, -, -, rfl⟩ := assemble_eq_ok.mp assembled
  rfl

end Finished

/-- Resolving never misses the slot of a local, and in a draft that it has resolved each access to
a local is in the frame if loads and stores have the kinds of their locals. -/
theorem resolve_framed (reachable : d.Reachable) :
    (∀ v, (d.resolve pool).1 ≠ .error (.unassignedLocal v)) ∧
      (d.KindsMatch → ∀ c d', d.resolve pool = (.ok c, d') → d'.Framed c.maxLocals.toNat) := by
  refine ⟨resolve_ne_unassignedLocal reachable.valid, fun kinds c d' resolved => ?_⟩
  obtain ⟨f, frame, ready, up, down, l, finished⟩ := exists_finished reachable.valid resolved
  rw [finished.maxLocals_eq]
  exact finished.framed reachable.valid kinds

/-- Three locals, of which one is wide and one is stored and never read. -/
def tallying : Draft :=
  let d := (empty 0).createLocal none .int none |>.2.createLocal none .long none
    |>.2.createLocal none .int none |>.2
  let d := (push (.simple Opcode.iconst_0) d).2
  let d := (push (.store ⟨0, 0⟩ .int false) d).2
  let d := (push (.simple Opcode.lconst_0) d).2
  let d := (push (.store ⟨0, 1⟩ .long false) d).2
  let d := (push (.simple Opcode.iconst_0) d).2
  let d := (push (.store ⟨0, 2⟩ .int false) d).2
  let d := (push (.increment ⟨0, 0⟩ 1) d).2
  let d := (push (.load ⟨0, 1⟩ .long) d).2
  (push (.simple Opcode.lreturn) d).2

theorem reachable_tallying : tallying.Reachable := by
  have locals := (((Reachable.empty 0).createLocal none .int none).createLocal none .long
    none).createLocal none .int none
  exact ((((((((locals.push _).push _).push _).push _).push _).push _).push _).push _).push _

theorem resolve_framed_tallying : tallying.Reachable ∧ tallying.KindsMatch ∧
    (∀ v, (tallying.resolve .empty).1 ≠ .error (.unassignedLocal v)) ∧
    ∃ c d', tallying.resolve .empty = (.ok c, d') ∧
      c.code = [3, 59, 9, 64, 3, 87, 132, 0, 1, 31, 173] ∧ c.maxLocals = 3 ∧ d'.Framed 3 := by
  have kinds : tallying.KindsMatch := by
    unfold KindsMatch
    decide
  have computed : (tallying.resolveWithin 20 .empty).map (fun r => (r.1.toOption, ())) =
      some (some ⟨2, 3, [3, 59, 9, 64, 3, 87, 132, 0, 1, 31, 173], [], [], []⟩, ()) := by
    decide +kernel
  obtain ⟨d', resolved, -⟩ := exists_resolve_of_within (fun _ => ()) computed
  obtain ⟨assigned, framed⟩ := @resolve_framed tallying .empty reachable_tallying
  exact ⟨reachable_tallying, kinds, assigned, _, d', resolved, rfl, rfl,
    framed kinds _ d' resolved⟩

end JvmAssembly.Draft
