import Mathlib
import JvmAssembly.Builder.Replay
import JvmAssembly.Proofs.Disassembly.Replay
import JvmAssembly.Proofs.Pool.Interning

/-!
What operations of a builder do to its draft and to the pool: each does a number of edits and
interns a number of constants, whether or not it succeeds. The only operation that fixes a slot is
the one that names it.
-/
namespace JvmAssembly

namespace Draft

/-- One edit as a builder makes it, which may fix a slot among the given ones for a new local. -/
inductive Edited (pins : UInt16 → Prop) (d : Draft) : Draft → Prop
  | push (i : Instruction) : Edited pins d (push i d).2
  | createLabel : Edited pins d d.createLabel.2
  | placeLabel (label : Label) : Edited pins d (placeLabel label d).2
  | addHandler (h : Handler) : Edited pins d (addHandler h d).2
  | markLine (line : UInt16) : Edited pins d (d.markLine line)
  | createLocal (name : Option String) (type : FieldType) {slot : Option UInt16}
      (allowed : ∀ s ∈ slot, pins s) : Edited pins d (d.createLocal name type slot).2

end Draft

namespace Emit

open Draft Interning Relation

variable {α β : Type} {pins : UInt16 → Prop}

/-- The draft is edited once, or one constant is interned. -/
inductive Worked (pins : UInt16 → Prop) : Workspace → Workspace → Prop
  | edited {pool : Pool} {builder : Builder} {d : Draft} (edit : Edited pins builder.draft d) :
      Worked pins ⟨pool, builder⟩ ⟨pool, { builder with draft := d }⟩
  | interned {pool pool' : Pool} {builder : Builder} (interned : pool.Interned pool') :
      Worked pins ⟨pool, builder⟩ ⟨pool', builder⟩

theorem drafts_of_worked {ws ws' : Workspace} (steps : ReflTransGen (Worked pins) ws ws') :
    ReflTransGen (Edited pins) ws.builder.draft ws'.builder.draft := by
  induction steps with
  | refl => exact .refl
  | tail _ last ih =>
      cases last with
      | edited edit => exact ih.tail edit
      | interned _ => exact ih

theorem pools_of_worked {ws ws' : Workspace} (steps : ReflTransGen (Worked pins) ws ws') :
    ReflTransGen Pool.Interned ws.pool ws'.pool := by
  induction steps with
  | refl => exact .refl
  | tail _ last ih =>
      cases last with
      | edited _ => exact ih
      | interned interned => exact ih.tail interned

/-- Whatever comes of an operation, it does a number of edits and interns a number of constants. -/
def Edits (pins : UInt16 → Prop) (x : Emit α) : Prop :=
  ∀ ws, ReflTransGen (Worked pins) ws (x ws).2

theorem edits_pure (a : α) : Edits pins (pure a : Emit α) := fun _ => .refl

theorem Edits.bind {x : Emit α} {f : α → Emit β} (first : Edits pins x)
    (later : ∀ a, Edits pins (f a)) : Edits pins (x >>= f) := by
  intro ws
  have before := first ws
  rw [run_bind]
  cases ran : x ws with
  | mk r ws' =>
      rw [ran] at before
      cases r with
      | ok a => exact before.trans (later a ws')
      | error fault => exact before

theorem edits_discard {x : Emit α} (h : Edits pins x) : Edits pins (discard x : Emit Unit) := by
  intro ws
  rw [run_discard]
  exact h ws

theorem edits_forM {xs : List β} {f : β → Emit Unit} (h : ∀ x, Edits pins (f x)) :
    Edits pins (xs.forM f) := by
  induction xs with
  | nil => exact edits_pure _
  | cons x xs ih => exact (h x).bind fun _ => ih

theorem edits_interning {x : Interning α} (h : Interns x) : Edits pins (interning x) := by
  rintro ⟨pool, builder⟩
  exact (h pool).lift (fun pool => Workspace.mk pool builder) fun _ _ => .interned

theorem edits_fail (fault : Fault) : Edits pins (fail fault : Emit α) := fun _ => .refl

theorem edits_localInfo (v : Local) : Edits pins (localInfo v) := fun _ => .refl

theorem edits_owner : Edits pins owner := fun _ => .refl

theorem edits_editing {e : Edit α} (h : ∀ d, Edited pins d (e d).2) : Edits pins (editing e) :=
  fun ws => .single (.edited (h ws.builder.draft))

theorem edits_push (i : Instruction) : Edits pins (push i) := by
  refine edits_editing fun d => ?_
  rw [run_discard]
  exact .push i

theorem Edits.silently {x : Emit Unit} (h : Edits pins x) : Edits pins (silently x) :=
  h.bind fun _ => edits_pure _

theorem edits_createLocal (name : Option String) (type : FieldType) {slot : Option UInt16}
    (allowed : ∀ s ∈ slot, pins s) : Edits pins (createLocal name type slot) := by
  have declared : Edits pins (editing fun d =>
      (.ok (d.createLocal name type slot).1, (d.createLocal name type slot).2)) :=
    edits_editing fun d => .createLocal name type allowed
  have made := declared.bind fun v => edits_pure (Made.var v)
  refine Edits.bind (fun _ => .refl) fun tracks => ?_
  dsimp only
  split
  · exact (edits_interning (interns_internLocal name type)).bind fun _ => made
  · exact made

theorem edits_exceptionHandler (start stop entry : Label) (catchType : Option RefType) :
    Edits pins (exceptionHandler start stop entry catchType) := by
  have guarded : ∀ type, Edits pins (editing (Draft.addHandler ⟨start, stop, entry, type⟩)) :=
    fun _ => edits_editing fun _ => .addHandler _
  unfold exceptionHandler
  dsimp only
  split
  · exact ((edits_interning (interns_cls _)).bind fun _ => edits_pure _).bind guarded
  · exact (edits_pure none).bind guarded

theorem edits_lineNumber (line : UInt16) : Edits pins (lineNumber line) :=
  (edits_discard (edits_interning (interns_text _))).bind fun _ =>
    edits_editing fun _ => .markLine line

theorem edits_invoke (kind : InvokeKind) (owner : Option RefType) (name : String)
    (descriptor : MethodDescriptor) (isInterface : Bool) :
    Edits pins (invoke kind owner name descriptor isInterface) := by
  unfold invoke
  dsimp only
  split
  · exact edits_fail _
  · exact edits_owner.bind fun _ =>
      (edits_interning (interns_methodRef _ _ _ _)).bind fun _ => edits_push _

theorem edits_field (static dynamic : Opcode) (owner : Option BinaryName) (name : String)
    (type : FieldType) (isStatic : Bool) (adjustment : Int) :
    Edits pins (field static dynamic owner name type isStatic adjustment) := by
  refine edits_owner.bind fun _ =>
    (edits_interning (interns_fieldRef _ _ _)).bind fun entry => ?_
  split <;> exact edits_push _

theorem edits_convert (source target : FieldType) (mode : ConvertMode) :
    Edits pins (convert source target mode) := by
  unfold convert
  split
  · split
    · split
      · exact edits_forM fun _ => edits_push _
      · exact edits_fail _
    · split
      · exact edits_invoke _ _ _ _ _
      · exact edits_fail _
  · exact edits_fail _

theorem edits_ifCompare (target : Label) (c : Comparison) (type : FieldType) :
    Edits pins (ifCompare target c type) := by
  unfold ifCompare
  dsimp only
  split
  · exact edits_push _
  · split
    · exact edits_push _
    · exact edits_fail _
  · exact (edits_push _).bind fun _ => edits_push _
  · exact (edits_push _).bind fun _ => edits_push _
  · exact (edits_push _).bind fun _ => edits_push _

theorem edits_classOperand (op : Opcode) (r : RefType) (adjustment : Int16) :
    Edits pins (classOperand op r adjustment) :=
  (edits_interning (interns_cls r)).bind fun _ => edits_push _

/-- An operation fixes no slot but the one it names. -/
theorem edits_perform (op : Op Label Local) (allowed : ∀ slot ∈ op.pinned?, pins slot) :
    Edits pins (perform op) := by
  cases op with
  | createLocal name type => exact edits_createLocal name type fun _ none => by cases none
  | createLocalAt name type slot => exact edits_createLocal name type allowed
  | createLabel => exact edits_editing fun d => .createLabel
  | placeLabel label => exact (edits_editing fun d => .placeLabel label).silently
  | exceptionHandler start stop entry catchType =>
      exact (edits_exceptionHandler start stop entry catchType).silently
  | lineNumber line => exact (edits_lineNumber line).silently
  | loadConstant value =>
      exact ((edits_interning (interns_loadInstruction value)).bind fun _ => edits_push _).silently
  | loadLocal v => exact ((edits_localInfo v).bind fun _ => edits_push _).silently
  | storeLocal v => exact ((edits_localInfo v).bind fun _ => edits_push _).silently
  | increment v amount =>
      refine Edits.silently ((edits_localInfo v).bind fun info => ?_)
      split
      · exact edits_fail _
      · exact edits_push _
  | getField owner name type isStatic => exact (edits_field _ _ owner name type isStatic _).silently
  | putField owner name type isStatic => exact (edits_field _ _ owner name type isStatic _).silently
  | invoke kind owner name descriptor isInterface =>
      exact (edits_invoke kind owner name descriptor isInterface).silently
  | newObject name => exact (edits_classOperand _ _ _).silently
  | newArray element =>
      cases element with
      | base b => exact (edits_push _).silently
      | ref r => exact (edits_classOperand _ _ _).silently
  | newMultiArray r dimensions =>
      refine Edits.silently ?_
      unfold newMultiArray
      split
      · exact edits_fail _
      · exact (edits_interning (interns_cls r)).bind fun _ => edits_push _
  | checkCast r => exact (edits_classOperand _ _ _).silently
  | instanceOf r => exact (edits_classOperand _ _ _).silently
  | math opcode =>
      refine Edits.silently ?_
      split
      · exact edits_push _
      · exact edits_fail _
  | convert source target mode => exact (edits_convert source target mode).silently
  | ifCompare target c type => exact (edits_ifCompare target c type).silently
  | ret v => exact ((edits_discard (edits_localInfo v)).bind fun _ => edits_push _).silently
  | returnValue type => cases type <;> exact (edits_push _).silently
  | _ => exact (edits_push _).silently

theorem pinned?_map {lab loc lab' loc' : Type} (f : lab → lab') (g : loc → loc') (op : Op lab loc) :
    (op.map f g).pinned? = op.pinned? := by
  cases op <;> rfl

theorem edits_run (b : Bindings) (ops : List (Op (Handle Label) (Handle Local)))
    (allowed : ∀ op ∈ ops, ∀ slot ∈ op.pinned?, pins slot) : Edits pins (run b ops) := by
  induction ops generalizing b with
  | nil => exact fun _ => .refl
  | cons op ops ih =>
      rw [List.forall_mem_cons] at allowed
      intro ws
      have permitted : ∀ slot ∈ (op.map (b.label ws.builder.draft)
          (b.var ws.builder.draft)).pinned?, pins slot := by
        rw [pinned?_map]
        exact allowed.1
      have first := edits_perform _ permitted ws
      rw [run]
      split
      · rename_i fault ws' ran
        rw [ran] at first
        exact first
      · rename_i made ws' ran
        rw [ran] at first
        exact first.trans (ih (b.add made) allowed.2 ws')

theorem edits_unpinned (b : Bindings) (ops : List (Op (Handle Label) (Handle Local)))
    (free : ∀ op ∈ ops, op.pinned? = none) : Edits (fun _ => False) (run b ops) := by
  refine edits_run b ops fun op member slot pinned => ?_
  rw [free op member] at pinned
  cases pinned

end Emit

end JvmAssembly
