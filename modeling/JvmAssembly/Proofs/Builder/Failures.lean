import Mathlib
import JvmAssembly.Proofs.Builder.Creation
import JvmAssembly.Proofs.Draft.Sequence

/-!
Operations that fail. An operation checks all it was given before it edits the draft, and the edits
change nothing when they fail, so the draft is left alone. The exception is a comparison of long or
floating-point values: it takes two instructions, and a label that the draft does not know is
refused only after the first of them is in place.
-/
namespace JvmAssembly

namespace Emit

variable {α β : Type}

/-- Never touches the draft. -/
def Quiet (x : Emit α) : Prop := ∀ ws, (x ws).2.builder.draft = ws.builder.draft

/-- Never fails. -/
def Sure (x : Emit α) : Prop := ∀ ws, ∃ a, (x ws).1 = .ok a

/-- Leaves the draft alone when it fails. -/
def Careful (x : Emit α) : Prop :=
  ∀ ws fault, (x ws).1 = .error fault → (x ws).2.builder.draft = ws.builder.draft

section Rules

theorem Sure.careful {x : Emit α} (sure : Sure x) : Careful x := by
  intro ws fault failed
  obtain ⟨a, done⟩ := sure ws
  rw [done] at failed
  cases failed

/-- Whatever comes before the first edit may fail, and so may the edit. -/
theorem Quiet.bind {x : Emit α} {f : α → Emit β} (quiet : Quiet x) (later : ∀ a, Careful (f a)) :
    Careful (x >>= f) := by
  intro ws fault failed
  have before := quiet ws
  rw [run_bind] at failed ⊢
  cases ran : x ws with
  | mk r ws' =>
      rw [ran] at before failed
      cases r with
      | error other => exact before
      | ok a => exact (later a ws' fault failed).trans before

/-- Nothing that comes after an edit may fail. -/
theorem Careful.bind {x : Emit α} {f : α → Emit β} (careful : Careful x) (sure : ∀ a, Sure (f a)) :
    Careful (x >>= f) := by
  intro ws fault failed
  rw [run_bind] at failed ⊢
  cases ran : x ws with
  | mk r ws' =>
      rw [ran] at failed
      cases r with
      | error other =>
          have first := careful ws other (by rw [ran])
          rw [ran] at first
          exact first
      | ok a =>
          obtain ⟨b, done⟩ := sure a ws'
          have never : (f a ws').1 = .error fault := failed
          rw [done] at never
          cases never

theorem Sure.bind {x : Emit α} {f : α → Emit β} (first : Sure x) (later : ∀ a, Sure (f a)) :
    Sure (x >>= f) := by
  intro ws
  obtain ⟨a, done⟩ := first ws
  rw [run_bind]
  cases ran : x ws with
  | mk r ws' =>
      rw [ran] at done
      cases done
      exact later a ws'

theorem Careful.silently {x : Emit Unit} (careful : Careful x) : Careful (silently x) :=
  careful.bind fun _ _ => ⟨_, rfl⟩

theorem quiet_interning (x : Interning α) : Quiet (interning x) := fun _ => rfl

theorem quiet_discard {x : Emit α} (quiet : Quiet x) : Quiet (discard x : Emit Unit) := by
  intro ws
  rw [run_discard]
  exact quiet ws

theorem quiet_localInfo (v : Local) : Quiet (localInfo v) := fun _ => rfl

theorem quiet_owner : Quiet owner := fun _ => rfl

theorem careful_fail (fault : Fault) : Careful (fail fault : Emit α) := fun _ _ _ => rfl

theorem careful_editing {e : Edit α} (atomic : e.Atomic) : Careful (editing e) := by
  rintro ⟨pool, draft, owner, receiver, parameters⟩ fault failed
  exact atomic draft fault _ (Prod.ext failed rfl)

theorem careful_push (i : Instruction) : Careful (push i) :=
  careful_editing (Draft.atomic_push i).discard

theorem careful_branch (op : Opcode) (target : Label) : Careful (branch op target) :=
  careful_push _

/-- An instruction without operands is never refused. -/
theorem push_simple (op : Opcode) (d : Draft) : Draft.push (.simple op) d =
    (.ok d.nodes.size, (d.allocate (.simple op)).placeLast d.nodes.size) := by
  have check : d.checkInstruction (.simple op) = .ok () :=
    Draft.checkInstruction_eq_ok.mpr ⟨nofun, nofun, nofun⟩
  simp only [Draft.push, check]

theorem run_simple (op : Opcode) (ws : Workspace) : simple op ws = (.ok (), { ws with builder :=
    { ws.builder with draft := (Draft.push (.simple op) ws.builder.draft).2 } }) := by
  simp only [simple, push, editing, run_discard, push_simple]
  rfl

theorem sure_simple (op : Opcode) : Sure (simple op) := fun ws => ⟨(), by rw [run_simple]⟩

theorem sure_forM {xs : List β} {f : β → Emit Unit} (sure : ∀ x, Sure (f x)) :
    Sure (xs.forM f) := by
  induction xs with
  | nil => exact fun _ => ⟨_, rfl⟩
  | cons x xs ih => exact (sure x).bind fun _ => ih

end Rules

section Operations

theorem sure_createLocal (name : Option String) (type : FieldType) (slot : Option UInt16) :
    Sure (createLocal name type slot) := by
  have declared : Sure (editing fun d =>
      (.ok (d.createLocal name type slot).1, (d.createLocal name type slot).2)) :=
    fun _ => ⟨_, rfl⟩
  have made := declared.bind fun v => (fun _ => ⟨Made.var v, rfl⟩ : Sure (pure (Made.var v)))
  refine Sure.bind (fun _ => ⟨_, rfl⟩) fun tracks => ?_
  dsimp only
  split
  · exact Sure.bind (fun _ => ⟨_, rfl⟩) fun _ => made
  · exact made

theorem careful_exceptionHandler (start stop entry : Label) (catchType : Option RefType) :
    Careful (exceptionHandler start stop entry catchType) := by
  have guarded : ∀ type, Careful (editing (Draft.addHandler ⟨start, stop, entry, type⟩)) :=
    fun _ => careful_editing (Draft.atomic_addHandler _)
  unfold exceptionHandler
  dsimp only
  split
  · refine Quiet.bind (fun ws => ?_) guarded
    rw [Functor.map, Applicative.toFunctor, Monad.toApplicative]
    rfl
  · exact Quiet.bind (fun _ => rfl) guarded

theorem careful_lineNumber (line : UInt16) : Careful (lineNumber line) :=
  (quiet_discard (quiet_interning _)).bind fun _ => Sure.careful fun _ => ⟨_, rfl⟩

theorem careful_interned {x : Interning α} (f : α → Instruction) :
    Careful (do push (f (← interning x))) :=
  (quiet_interning x).bind fun _ => careful_push _

theorem careful_invoke (kind : InvokeKind) (owner : Option RefType) (name : String)
    (descriptor : MethodDescriptor) (isInterface : Bool) :
    Careful (invoke kind owner name descriptor isInterface) := by
  unfold invoke
  dsimp only
  split
  · exact careful_fail _
  · exact quiet_owner.bind fun _ => careful_interned _

theorem careful_field (static dynamic : Opcode) (owner : Option BinaryName) (name : String)
    (type : FieldType) (isStatic : Bool) (adjustment : Int) :
    Careful (field static dynamic owner name type isStatic adjustment) := by
  refine quiet_owner.bind fun _ => (quiet_interning _).bind fun entry => ?_
  split <;> exact careful_push _

theorem careful_classOperand (op : Opcode) (r : RefType) (adjustment : Int16) :
    Careful (classOperand op r adjustment) :=
  careful_interned _

theorem careful_convert (source target : FieldType) (mode : ConvertMode) :
    Careful (convert source target mode) := by
  unfold convert
  split
  · split
    · split
      · exact (sure_forM sure_simple).careful
      · exact careful_fail _
    · split
      · exact careful_invoke _ _ _ _ _
      · exact careful_fail _
  · exact careful_fail _

end Operations

section Comparisons

open Draft

variable {ws ws' : Workspace} {op : Op Label Local} {target : Label} {c : Comparison}
  {type : FieldType} {first : Opcode} {fault : Fault}

/-- The instruction that compares long or floating-point values, ahead of the branch. -/
def comparing? (c : Comparison) (type : FieldType) : Option Opcode :=
  match LocalKind.ofType type with
  | .long => some Opcode.lcmp
  | .float => some (if c == .lt || c == .le then Opcode.fcmpg else Opcode.fcmpl)
  | .double => some (if c == .lt || c == .le then Opcode.dcmpg else Opcode.dcmpl)
  | .int | .reference => none

theorem ifCompare_eq (comparing : comparing? c type = some first) :
    ifCompare target c type = (do simple first; branch c.zeroOpcode target) := by
  unfold comparing? at comparing
  unfold ifCompare
  cases kind : LocalKind.ofType type <;> rw [kind] at comparing <;> cases comparing <;> rfl

theorem careful_ifCompare (alone : comparing? c type = none) :
    Careful (ifCompare target c type) := by
  unfold comparing? at alone
  unfold ifCompare
  cases kind : LocalKind.ofType type <;> rw [kind] at alone
  case int => exact careful_branch _ _
  case reference =>
    dsimp only
    split
    · exact careful_branch _ _
    · exact careful_fail _
  all_goals cases alone

/-- The instruction that an operation may leave behind when it fails. -/
def residue? : Op Label Local → Option Opcode
  | .ifCompare _ c type => comparing? c type
  | _ => none

theorem careful_perform (alone : residue? op = none) : Careful (perform op) := by
  cases op with
  | createLocal name type => exact (sure_createLocal name type none).careful
  | createLocalAt name type slot => exact (sure_createLocal name type (some slot)).careful
  | createLabel => exact Sure.careful fun _ => ⟨_, rfl⟩
  | placeLabel label => exact (careful_editing (atomic_placeLabel label)).silently
  | exceptionHandler start stop entry catchType =>
      exact (careful_exceptionHandler start stop entry catchType).silently
  | lineNumber line => exact (careful_lineNumber line).silently
  | loadConstant value =>
      exact ((quiet_interning _).bind fun _ => careful_push _).silently
  | loadLocal v => exact ((quiet_localInfo v).bind fun _ => careful_push _).silently
  | storeLocal v => exact ((quiet_localInfo v).bind fun _ => careful_push _).silently
  | increment v amount =>
      refine Careful.silently ((quiet_localInfo v).bind fun info => ?_)
      split
      · exact careful_fail _
      · exact careful_push _
  | getField owner name type isStatic =>
      exact (careful_field _ _ owner name type isStatic _).silently
  | putField owner name type isStatic =>
      exact (careful_field _ _ owner name type isStatic _).silently
  | invoke kind owner name descriptor isInterface =>
      exact (careful_invoke kind owner name descriptor isInterface).silently
  | newObject name => exact (careful_classOperand _ _ _).silently
  | newArray element =>
      cases element with
      | base b => exact (careful_push _).silently
      | ref r => exact (careful_classOperand _ _ _).silently
  | newMultiArray r dimensions =>
      refine Careful.silently ?_
      unfold newMultiArray
      split
      · exact careful_fail _
      · exact (quiet_interning _).bind fun _ => careful_push _
  | checkCast r => exact (careful_classOperand _ _ _).silently
  | instanceOf r => exact (careful_classOperand _ _ _).silently
  | math opcode =>
      refine Careful.silently ?_
      split
      · exact careful_push _
      · exact careful_fail _
  | convert source target mode => exact (careful_convert source target mode).silently
  | ifCompare target c type => exact (careful_ifCompare alone).silently
  | ret v => exact ((quiet_discard (quiet_localInfo v)).bind fun _ => careful_push _).silently
  | returnValue type => cases type <;> exact (careful_push _).silently
  | _ => exact (careful_push _).silently

theorem careful_loadReceiver : Careful loadReceiver := by
  intro ws fault failed
  unfold loadReceiver at failed ⊢
  cases known : ws.builder.receiver with
  | none => rfl
  | some v =>
      have careful : Careful (perform (.loadLocal v)) := careful_perform rfl
      rw [known] at failed
      exact careful ws fault failed

theorem checkLabel_eq_error {d : Draft} :
    d.checkLabel target = .error fault ↔ ¬ d.OwnsLabel target ∧ fault = .foreignLabel target := by
  rw [← checkLabel_eq_ok]
  unfold checkLabel
  split
  · split <;> simp [eq_comm]
  · simp [eq_comm]

theorem checkInstruction_branch (d : Draft) (op : Opcode) (target : Label) :
    d.checkInstruction (.branch op target) = d.checkLabel target := by
  change (d.checkLabel target >>= fun _ => pure ()) >>= (fun _ => pure () >>= fun _ => pure ()) = _
  cases d.checkLabel target <;> rfl

theorem ownsLabel_push_simple {d : Draft} :
    (Draft.push (.simple first) d).2.OwnsLabel target ↔ d.OwnsLabel target := by
  rw [push_simple]
  have same : ∀ n : NodeId,
      ((((d.allocate (.simple first)).placeLast d.nodes.size).nodes[n]?).map Node.instruction) =
        ((d.allocate (.simple first)).nodes[n]?).map Node.instruction :=
    instruction_markPlaced _ d.nodes.size true
  constructor
  · rintro ⟨own, placed, found⟩
    have label := same target.node
    rw [found, allocate, Array.getElem?_push] at label
    split at label
    · cases label
    · obtain ⟨⟨i, placed'⟩, stored, equal⟩ := Option.map_eq_some_iff.mp label.symm
      cases equal
      exact ⟨own, placed', stored⟩
  · intro own
    have placed : Keeps (d.allocate (.simple first))
        ((d.allocate (.simple first)).placeLast d.nodes.size) :=
      keeps_of_instructions rfl same (Nat.le_refl _)
    exact placed.label ((keeps_allocate d _).label own)

/-- A branch is refused exactly if its target is, and then does nothing. -/
theorem branch_eq_error {opcode : Opcode} : branch opcode target ws = (.error fault, ws') ↔
    ¬ ws.builder.draft.OwnsLabel target ∧ fault = .foreignLabel target ∧ ws' = ws := by
  obtain ⟨pool, draft, owner, receiver, parameters⟩ := ws
  simp only [branch, push, editing, run_discard, Draft.push, checkInstruction_branch]
  cases check : draft.checkLabel target with
  | error other =>
      obtain ⟨foreign, rfl⟩ := checkLabel_eq_error.mp check
      constructor
      · intro failed
        cases failed
        exact ⟨foreign, rfl, rfl⟩
      · rintro ⟨-, rfl, rfl⟩
        rfl
  | ok done =>
      constructor
      · intro failed
        cases failed
      · rintro ⟨foreign, -⟩
        exact absurd (checkLabel_eq_ok.mp check) foreign

theorem silently_eq_error {x : Emit Unit} :
    silently x ws = (.error fault, ws') ↔ x ws = (.error fault, ws') := by
  rw [silently, run_bind]
  cases x ws with
  | mk r after =>
      cases r with
      | error other => exact ⟨fun failed => by cases failed; rfl, fun failed => by cases failed; rfl⟩
      | ok done => exact ⟨nofun, nofun⟩

/-- The comparison is in place by the time the branch is refused. -/
theorem ifCompare_eq_error (comparing : comparing? c type = some first) :
    perform (.ifCompare target c type) ws = (.error fault, ws') ↔
      ¬ ws.builder.draft.OwnsLabel target ∧ fault = .foreignLabel target ∧
        ws' = { ws with builder :=
          { ws.builder with draft := (Draft.push (.simple first) ws.builder.draft).2 } } := by
  have refused : (Draft.push (.simple first) ws.builder.draft).2.OwnsLabel target ↔
      ws.builder.draft.OwnsLabel target := ownsLabel_push_simple
  change silently (ifCompare target c type) _ = _ ↔ _
  rw [silently_eq_error, ifCompare_eq comparing, run_bind, run_simple, ← refused]
  exact branch_eq_error

theorem push_simple_ne (op : Opcode) (d : Draft) : (Draft.push (.simple op) d).2 ≠ d := by
  intro same
  have sizes := congrArg (fun x : Draft => x.order.size) same
  rw [push_simple] at sizes
  simp [placeLast, allocate, markPlaced] at sizes

/-- An operation that fails leaves the draft as it was, unless it compares long or floating-point
values: then it fails exactly if the label is not one of the draft, and leaves the comparison. -/
theorem draft_of_failed (ws : Workspace) :
    (∀ (op : Op Label Local) (fault : Fault) (ws' : Workspace),
      perform op ws = (.error fault, ws') →
        (ws'.builder.draft = ws.builder.draft ↔ residue? op = none) ∧
        ∀ first ∈ residue? op,
          ws'.builder.draft = (Draft.push (.simple first) ws.builder.draft).2) ∧
    (∀ (target : Label) (c : Comparison) (type : FieldType) (fault : Fault),
      residue? (.ifCompare target c type) ≠ none →
        ((perform (.ifCompare target c type) ws).1 = .error fault ↔
          ¬ ws.builder.draft.OwnsLabel target ∧ fault = .foreignLabel target)) ∧
    ∀ (fault : Fault) (ws' : Workspace), loadReceiver ws = (.error fault, ws') →
      ws'.builder.draft = ws.builder.draft := by
  refine ⟨?_, ?_, ?_⟩
  · intro op fault ws' failed
    cases left : residue? op with
    | none =>
        have kept := careful_perform left ws fault (by rw [failed])
        rw [failed] at kept
        exact ⟨⟨fun _ => rfl, fun _ => kept⟩, nofun⟩
    | some first =>
        -- Only such a comparison leaves anything behind.
        cases op <;> try cases left
        obtain ⟨-, -, rfl⟩ := (ifCompare_eq_error left).mp failed
        refine ⟨⟨fun same => absurd same (push_simple_ne _ _), nofun⟩, ?_⟩
        rintro other ⟨⟩
        rfl
  · intro target c type fault left
    obtain ⟨first, comparing⟩ := Option.ne_none_iff_exists'.mp left
    constructor
    · intro failed
      obtain ⟨foreign, same, -⟩ := (ifCompare_eq_error comparing).mp (Prod.ext failed rfl)
      exact ⟨foreign, same⟩
    · rintro ⟨foreign, rfl⟩
      rw [(ifCompare_eq_error comparing).mpr ⟨foreign, rfl, rfl⟩]
  · intro fault ws' failed
    have kept := careful_loadReceiver ws fault (by rw [failed])
    rw [failed] at kept
    exact kept

/-- An empty method body. Label 0 of draft 0 is not one of its labels. -/
def fresh : Workspace := ⟨.empty, Builder.initial 1 .object ⟨[], none⟩ true⟩

theorem draft_of_failed_fresh : ∃ ws',
    perform (.branch ⟨0, 0⟩) fresh = (.error (.foreignLabel ⟨0, 0⟩), ws') ∧
      ws'.builder.draft = fresh.builder.draft :=
  ⟨_, rfl, (((draft_of_failed fresh).1 (.branch ⟨0, 0⟩) _ _ rfl).1).mpr rfl⟩

/-- The comparison stays although the operation has failed. -/
theorem draft_changed_fresh : ∃ ws',
    perform (.ifCompare ⟨0, 0⟩ .lt .long) fresh = (.error (.foreignLabel ⟨0, 0⟩), ws') ∧
      fresh.builder.draft.toList = [] ∧
      ws'.builder.draft.toList = [(0, .simple Opcode.lcmp)] :=
  ⟨_, rfl, rfl, rfl⟩

end Comparisons

end Emit

end JvmAssembly
