import Mathlib
import JvmAssembly.Proofs.Draft.ControlFlow

/-!
What resolving a draft can fail with. The analyses and the passes of layout have faults of their
own, the pool has those of constants that are missing, and an instruction that cannot be written
names a constant that is missing or a local without a slot.
-/
namespace JvmAssembly

namespace Fault

/-- A constant is not in the pool, or it has no index. -/
def isMissing : Fault → Bool
  | .notInterned _ | .indexUnassigned _ | .missingConstant _ | .noSuchEntry _ => true
  | _ => false

/-- The draft is no code, whatever constants and slots there are and with all labels in their
places: the stack is out of balance, a jump cannot be wide, or something is too large. -/
def isStructural : Fault → Bool
  | .maxLocalsOverflow _ | .inconsistentDepth _ _ _ | .stackUnderflow _ | .maxStackOverflow _
  | .codeOverflow _ | .unsettledLayout | .invalidOperand _ => true
  | _ => false

theorem not_isMissing_of_isStructural {fault : Fault} (structural : fault.isStructural = true) :
    fault.isMissing = false := by
  cases fault <;> first | rfl | cases structural

end Fault

namespace Draft

/-- A placed instruction or a handler refers to the label. -/
def Refers (d : Draft) (label : Label) : Prop :=
  (∃ n ∈ d.order.toList, label ∈ (d.instructionAt n).targets) ∨
    ∃ h ∈ d.handlers, label = h.start ∨ label = h.stop ∨ label = h.entry

theorem positionOf_eq_error {d : Draft} {positions : Array (Option Nat)} {label : Label}
    {fault : Fault} (failed : d.positionOf positions label = .error fault) :
    fault = .unplacedLabel label := by
  unfold positionOf at failed
  split at failed
  · split at failed <;> cases failed
    rfl
  · cases failed
    rfl

/-- The flow can only fail on a label in use that has no position. -/
theorem failsWith_flow (d : Draft) : FailsWith (fun fault => ∃ label, d.Refers label ∧
    d.positionOf d.positions label = .error fault) d.flow := by
  have position : ∀ label, d.Refers label → FailsWith (fun fault => ∃ label, d.Refers label ∧
      d.positionOf d.positions label = .error fault) (d.positionOf d.positions label) :=
    fun label used fault failed => ⟨label, used, failed⟩
  refine (failsWith_mapM fun n member => ?_).bind fun _ _ => FailsWith.bind
    (failsWith_mapM fun h member => ?_) fun _ _ => failsWith_ok _
  · have targets := failsWith_mapM fun label target =>
      position label (.inl ⟨n, member, target⟩)
    unfold pointOf
    dsimp only
    split
    · rename_i fault failed
      exact failsWith_error (targets fault failed)
    · exact failsWith_ok _
  · have there := Array.mem_toList_iff.mp member
    exact (position _ (.inr ⟨h, there, .inl rfl⟩)).bind fun _ _ =>
      (position _ (.inr ⟨h, there, .inr (.inl rfl)⟩)).bind fun _ _ =>
        (position _ (.inr ⟨h, there, .inr (.inr rfl)⟩)).bind fun _ _ => failsWith_ok _

theorem failsWith_place (liveness : Liveness) (v : Nat) (a : Allocation) :
    FailsWith (·.isStructural = true) (Allocation.place liveness v a).1 := by
  unfold Allocation.place
  split
  · dsimp only
    split
    · exact failsWith_ok ()
    · split
      · exact failsWith_error rfl
      · exact failsWith_ok ()
  · exact failsWith_ok ()

theorem failsWith_placeAll (liveness : Liveness) (vs : List Nat) (a : Allocation) :
    FailsWith (·.isStructural = true) (Allocation.placeAll liveness vs a).1 := by
  induction vs generalizing a with
  | nil => exact failsWith_ok ()
  | cons v vs ih =>
      have first := failsWith_place liveness v a
      rw [Allocation.placeAll]
      cases ran : Allocation.place liveness v a with
      | mk result a' =>
          rw [ran] at first
          cases result with
          | ok done => exact ih a'
          | error fault => exact first

theorem failsWith_allocateSlots (liveness : Liveness) (d : Draft) :
    FailsWith (·.isStructural = true) (allocateSlots liveness d).1 := by
  unfold allocateSlots
  dsimp only
  split
  · rename_i fault a failed
    have all := failsWith_placeAll liveness (List.range d.locals.size)
      ((List.range d.locals.size).foldl (Allocation.claimFixed liveness)
        ⟨d.locals, #[], d.reservedSlots.toNat⟩)
    rw [failed] at all
    exact failsWith_error (all fault rfl)
  · split
    · exact failsWith_error rfl
    · exact failsWith_ok _

end Draft

namespace StackDepth.Walk

variable {f : Flow} {w : Walk} {fault : Fault}

theorem giveBack_eq_stop {rest : Frame} {position : Nat} {depth : Int}
    (stopped : w.giveBack rest position depth = .stop fault) : fault.isStructural = true := by
  unfold giveBack at stopped
  split at stopped
  · split at stopped <;> cases stopped
    rfl
  · cases stopped

theorem visit_eq_stop {rest : Frame} {position : Nat} {depth : Int} {p : Point}
    (stopped : w.visit f rest position depth p = .stop fault) : fault.isStructural = true := by
  unfold visit at stopped
  dsimp only at stopped
  split at stopped
  · split at stopped <;> cases stopped
  · split at stopped
    · cases stopped
      rfl
    · split at stopped
      · exact giveBack_eq_stop stopped
      · cases stopped

theorem step_eq_stop (stopped : w.step f = .stop fault) : fault.isStructural = true := by
  unfold step at stopped
  split at stopped
  · split at stopped <;> cases stopped
  · dsimp only at stopped
    split at stopped
    · split at stopped <;> cases stopped
      rfl
    · exact visit_eq_stop stopped
    · cases stopped

theorem failsWith_run (f : Flow) (w : Walk) : FailsWith (·.isStructural = true) (w.run f) := by
  induction w using run.induct f with
  | case1 w w' step _ ih =>
      rw [run]
      split <;> rename_i stepped <;> cases step.symm.trans stepped
      exact ih
  | case2 w last step =>
      rw [run]
      split <;> rename_i stepped <;> cases step.symm.trans stepped
      exact failsWith_ok last
  | case3 w fault step =>
      rw [run]
      split <;> rename_i stepped <;> cases step.symm.trans stepped
      exact failsWith_error (step_eq_stop step)

end StackDepth.Walk

theorem Flow.failsWith_maxStack (f : Flow) : FailsWith (·.isStructural = true) f.maxStack := by
  have walked := StackDepth.Walk.failsWith_run f (StackDepth.start f)
  unfold maxStack
  split
  · rename_i fault failed
    exact failsWith_error (walked fault failed)
  · split
    · exact failsWith_error rfl
    · exact failsWith_ok _

namespace Pool

variable (p : Pool)

theorem failsWith_indexOf (ref : ConstantRef) :
    FailsWith (·.isMissing = true) (p.indexOf ref) := by
  unfold indexOf
  split
  · exact failsWith_error rfl
  · split
    · exact failsWith_ok _
    · exact failsWith_error rfl

theorem failsWith_indexOfText (s : String) :
    FailsWith (·.isMissing = true) (p.indexOfText s) := by
  unfold indexOfText indexOfConstant
  split
  · exact p.failsWith_indexOf _
  · exact failsWith_error rfl

end Pool

namespace Instruction

/-- The pool entry that an instruction names. -/
def ref? : Instruction → Option ConstantRef
  | .constant _ entry _ | .invoke _ entry _ _ | .multiNewArray entry _ => some entry
  | _ => none

/-- The local whose slots an instruction is written with, and how many of them it reads or writes.
A store that is discarded has no use for them. -/
def access? : Instruction → Option (Local × Nat)
  | .load source kind => some (source, kind.width)
  | .store target kind false => some (target, kind.width)
  | .increment target _ => some (target, 1)
  | .ret source => some (source, 1)
  | _ => none

end Instruction

namespace Draft

variable {d d' : Draft} {pool : Pool} {offsets : Offsets} {offset : Nat} {fault : Fault}

/-- What cannot be written names a constant that is not there or a local without a slot. -/
theorem encode_eq_error {i : Instruction} (failed : d.encode pool offsets offset i = .error fault) :
    (∃ ref, i.ref? = some ref ∧ pool.indexOf ref = .error fault) ∨
      ∃ v width, i.access? = some (v, width) ∧ d.slotOf v = .error fault := by
  have first : ∀ {a : Except Fault UInt16} {make : UInt16 → Encoding},
      (do return make (← a)) = Except.error fault → a = .error fault := by
    intro a make failed
    cases a with
    | error fault' => exact congrArg Except.error (Except.error.inj failed)
    | ok word => cases failed
  cases i with
  | constant op entry adjustment => exact .inl ⟨entry, rfl, first failed⟩
  | invoke op entry adjustment slots => exact .inl ⟨entry, rfl, first failed⟩
  | multiNewArray entry dimensions => exact .inl ⟨entry, rfl, first failed⟩
  | load v kind => exact .inr ⟨v, kind.width, rfl, first failed⟩
  | store v kind discard =>
      cases discard with
      | true => cases failed
      | false => exact .inr ⟨v, kind.width, rfl, first failed⟩
  | increment v amount => exact .inr ⟨v, 1, rfl, first failed⟩
  | ret v => exact .inr ⟨v, 1, rfl, first failed⟩
  | immediate op operand =>
      unfold encode at failed
      dsimp only at failed
      split at failed <;> cases failed
  | label | simple | branch | switch => cases failed

theorem slotOf_eq_error {v : Local} (failed : d.slotOf v = .error fault) :
    fault = .unassignedLocal v := by
  unfold slotOf at failed
  split at failed <;> cases failed
  rfl

/-- Some instruction of the draft cannot be written. -/
def Unwritable (pool : Pool) (d : Draft) (fault : Fault) : Prop :=
  ∃ n ∈ d.order.toList, ∃ offsets offset,
    d.encode pool offsets offset (d.instructionAt n) = .error fault

theorem locals_placeAfter (d : Draft) (anchor node : NodeId) :
    (d.placeAfter anchor node).locals = d.locals := by
  unfold placeAfter
  dsimp only
  split <;> rfl

theorem Widens.locals (w : Widens d d') : d'.locals = d.locals := by
  cases w with
  | jump => rfl
  | condition => exact (locals_placeAfter _ _ _).trans (locals_placeAfter _ _ _)

/-- Widening a jump leaves all else where it is. -/
theorem Widens.instructionAt (w : Widens d d') (valid : d.Valid) (n : NodeId) :
    d'.instructionAt n = d.instructionAt n ∧ (n ∈ d'.order.toList → n ∈ d.order.toList) ∨
      (∃ op target, d'.instructionAt n = .branch op target) ∨ d'.instructionAt n = .label := by
  cases w with
  | @jump node op far target member found form =>
      by_cases same : n = node
      · subst same
        exact .inr (.inl ⟨far, target, instructionAt_setInstruction d _ (valid.inside member)⟩)
      · exact .inl ⟨instructionAt_setInstruction_ne d _ same, fun there => there⟩
  | @condition node op inverted target member found form opposite =>
      have inside := valid.inside member
      -- A node of before, the label that was put in, or the far jump, or no node at all.
      rcases Nat.lt_trichotomy n d.nodes.size with old | rfl | new
      · by_cases same : n = node
        · subst same
          exact .inr (.inl ⟨_, _, widenCondition.atNode inside⟩)
        · refine .inl ⟨widenCondition.atOther old same, fun there => ?_⟩
          rcases (widenCondition.mem_order valid member).mp there with rfl | rfl | stays
          · exact absurd old (Nat.lt_irrefl _)
          · exact absurd old (Nat.not_lt.mpr (Nat.le_succ _))
          · exact stays
      · exact .inr (.inr (widenCondition.atHop inside))
      · rcases Nat.eq_or_lt_of_le (Nat.succ_le_of_lt new) with rfl | past
        · exact .inr (.inl ⟨_, _, widenCondition.atJump inside⟩)
        · refine .inr (.inr ?_)
          rw [instructionAt_eq, Array.getElem?_eq_none (by rw [widenCondition.size]; omega)]
          rfl

end Draft

namespace Layout

open Draft Pass

variable {pool : Pool} {d d' : Draft} {fault : Fault}

theorem Pass.instructionAt_widened (w : Widened d d') (valid : d.Valid) (n : NodeId) :
    d'.instructionAt n = d.instructionAt n ∧ (n ∈ d'.order.toList → n ∈ d.order.toList) ∨
      (∃ op target, d'.instructionAt n = .branch op target) ∨ d'.instructionAt n = .label := by
  induction w with
  | refl => exact .inl ⟨rfl, fun there => there⟩
  | tail before last ih =>
      rcases last.instructionAt (valid_widened valid before) n with ⟨same, stays⟩ | changed
      · rw [same]
        exact ih.imp_left fun kept => ⟨kept.1, fun there => kept.2 (stays there)⟩
      · exact .inr changed

theorem Pass.locals_widened (w : Widened d d') : d'.locals = d.locals := by
  induction w with
  | refl => rfl
  | tail before last ih => exact last.locals.trans ih

namespace Pass

variable {p p' : Pass} {node : NodeId} {rest : List NodeId}

/-- A step fails on an instruction that cannot be written, or on a jump that cannot be wide. -/
theorem step_eq_error (failed : p.step pool node = (.error fault, p')) :
    fault.isStructural = true ∨ (p.whole (node :: rest)).Unwritable pool fault := by
  unfold step at failed
  dsimp only at failed
  rw [mark_draft] at failed
  split at failed
  · rename_i fault' unwritten
    cases failed
    refine .inr ⟨node, ?_, _, _, (encode_congr rfl fun _ _ => rfl).trans unwritten⟩
    rw [order_whole]
    exact List.mem_append_right _ List.mem_cons_self
  · cases failed
  · unfold widen at failed
    split at failed
    · cases failed
    · split at failed <;> cases failed
      exact .inl rfl

theorem run_eq_error (valid : (p.whole rest).Valid)
    (failed : run pool rest p = (.error fault, p')) :
    fault.isStructural = true ∨ ∃ x, Widened (p.whole rest) x ∧ x.Unwritable pool fault := by
  induction rest generalizing p with
  | nil => cases failed
  | cons node rest ih =>
      unfold run at failed
      split at failed
      · rename_i q stepped
        have first := step_widens valid stepped
        refine (ih (valid_widened valid first) failed).imp_right ?_
        rintro ⟨x, later, unwritable⟩
        exact ⟨x, first.trans later, unwritable⟩
      · rename_i fault' q stepped
        cases failed
        exact (step_eq_error stepped).imp_right fun unwritable => ⟨_, .refl, unwritable⟩

end Pass

theorem settle_eq_error {budget : Nat} {offsets : Offsets} (valid : d.Valid)
    (failed : settle pool budget offsets d = (.error fault, d')) :
    fault.isStructural = true ∨ ∃ x, Widened d x ∧ x.Unwritable pool fault := by
  induction budget generalizing offsets d with
  | zero =>
      cases failed
      exact .inl rfl
  | succ budget ih =>
      unfold settle at failed
      split at failed
      · rename_i fault' p passed
        cases failed
        obtain ⟨q, ran, -⟩ := pass_eq passed
        have stopped := run_eq_error ((whole_start d offsets).symm ▸ valid) ran
        rwa [whole_start] at stopped
      · rename_i p passed
        have first := pass_widens valid passed
        split at failed
        · cases failed
          exact .inl rfl
        · split at failed
          · cases failed
          · refine (ih (valid_widened valid first) failed).imp_right ?_
            rintro ⟨x, later, unwritable⟩
            exact ⟨x, first.trans later, unwritable⟩

/-- Layout fails on an instruction that cannot be written, unless the draft is no code anyway. -/
theorem layout_eq_error (valid : d.Valid) (failed : d.layout pool = (.error fault, d')) :
    fault.isStructural = true ∨ ∃ x, Widened d x ∧ x.Unwritable pool fault :=
  settle_eq_error valid failed

end Layout

namespace Draft

variable {pool : Pool}

theorem failsWith_handlerRow (l : Layout) (h : Handler) :
    FailsWith (·.isMissing = true) (handlerRow pool l h) := by
  unfold handlerRow
  dsimp only
  split
  · exact failsWith_ok _
  · cases h.catchType with
    | none => exact failsWith_ok _
    | some ref => exact (pool.failsWith_indexOf ref).bind fun _ _ => failsWith_ok _

theorem failsWith_variableRow (l : Layout) (d : Draft) (range : LiveRange) :
    FailsWith (·.isMissing = true) (variableRow pool l d range) := by
  unfold variableRow
  dsimp only
  split
  · exact failsWith_ok _
  · split
    · exact (pool.failsWith_indexOfText _).bind fun _ _ =>
        (pool.failsWith_indexOfText _).bind fun _ _ => failsWith_ok _
    · exact failsWith_ok _

/-- With the code written, only constants for the tables may be missing. -/
theorem failsWith_assemble (l : Layout) (d : Draft) (depth frame : UInt16)
    (ranges : List LiveRange) :
    FailsWith (·.isMissing = true) (d.assemble pool l depth frame ranges) :=
  (failsWith_mapM fun h _ => failsWith_handlerRow l h).bind fun _ _ =>
    (failsWith_mapM fun range _ => failsWith_variableRow l d range).bind fun _ _ => failsWith_ok _

end Draft

end JvmAssembly
