import Mathlib
import JvmAssembly.Proofs.Builder.Origins
import JvmAssembly.Proofs.Draft.Lookups

/-!
Operations provide for what resolving looks up. Whatever an operation writes into a draft, it has
put the constants for it into the pool first, and what the pool has it keeps.
-/
namespace JvmAssembly

namespace Pool

variable {p : Pool} {ref : ConstantRef}

theorem HasClass.lists {name : String} (held : p.HasClass name ref) : p.Lists ref := by
  obtain ⟨_, -, found⟩ := held
  exact ⟨_, found⟩

theorem HasField.lists {owner name descriptor : String}
    (held : p.HasField owner name descriptor ref) : p.Lists ref := by
  obtain ⟨_, -, _, -, found⟩ := held
  exact ⟨_, found⟩

theorem HasMethod.lists {owner name descriptor : String} {isInterface : Bool}
    (held : p.HasMethod owner name descriptor isInterface ref) : p.Lists ref := by
  obtain ⟨_, -, _, -, found⟩ := held
  exact ⟨_, found⟩

theorem HasValue.lists {v : Value} (held : p.HasValue v ref) : p.Lists ref := by
  cases v with
  | string s =>
      obtain ⟨_, -, found⟩ := held
      exact ⟨_, found⟩
  | cls r => exact HasClass.lists held
  | int n | long n | float bits | double bits => exact ⟨_, held⟩

/-- Words for a local in the table of locals. -/
def KnowsLocal (p : Pool) (name : Option String) (type : FieldType) : Prop :=
  ∀ s ∈ name, p.Knows s ∧ p.Knows type.render

end Pool

namespace Emit

open Interning Draft Pool

variable {α β : Type} {base : Pool} {P : Workspace → Prop}

theorem finds_known (s : String) : Finds (discard (text s)) fun p _ => p.Knows s :=
  (finds_text s).discard

/-- Two words, as of a member with its type. -/
theorem finds_words (s t : String) :
    Finds (do discard (text s); discard (text t)) fun p _ => p.Knows s ∧ p.Knows t :=
  ((finds_known s).bind fun _ => finds_known t).congr fun _ _ => exists_const _

theorem finds_internLocal (name : Option String) (type : FieldType) :
    Finds (internLocal name type) fun p _ => p.KnowsLocal name type := by
  cases name with
  | none => exact (finds_pure ()).congr fun p a => iff_of_true rfl nofun
  | some name =>
      refine (finds_words name type.render).congr fun p a => ?_
      exact ⟨fun known => by rintro _ ⟨⟩; exact known, fun known => known name rfl⟩

/-- The pool has grown from another one and has all that resolving the draft looks up. -/
structure Provided (base : Pool) (ws : Workspace) : Prop where
  coherent : ws.pool.Coherent
  grown : base.Within ws.pool
  stocked : ws.builder.draft.Stocked ws.pool

theorem Provided.interned {pool pool' : Pool} {builder : Builder}
    (provided : Provided base ⟨pool, builder⟩)
    (steps : Relation.ReflTransGen Pool.Interned pool pool') : Provided base ⟨pool', builder⟩ where
  coherent := coherent_of_interned provided.coherent steps
  grown _ _ found := within_of_interned steps (provided.grown found)
  stocked := provided.stocked.mono (within_of_interned steps)

/-- Keeps the pool and the draft provided, whatever comes of it. -/
abbrev Provides (base : Pool) (x : Emit α) : Prop := Preserves (Provided base) x

theorem provided_interning {x : Interning α} {Holds : Pool → α → Prop} (finds : Finds x Holds) :
    Maintains (Provided base) P (interning x) fun a ws => Holds ws.pool a := by
  rintro ⟨pool, builder⟩ provided -
  refine ⟨provided.interned (finds.interns pool), ?_⟩
  rintro _ ⟨⟩
  exact finds.made pool

/-- An edit may rely on what the pool holds by then. -/
theorem provided_editing {Q : Pool → Prop} {e : Edit α}
    (keeps : ∀ pool d, Q pool → d.Stocked pool → (e d).2.Stocked pool) :
    Maintains (Provided base) (fun ws => Q ws.pool) (editing e) fun _ _ => True := by
  rintro ⟨pool, draft, owner, receiver, parameters⟩ provided held
  exact ⟨⟨provided.coherent, provided.grown, keeps pool draft held provided.stocked⟩,
    fun _ _ => trivial⟩

section Edits

variable {d : Draft} {pool : Pool}

theorem stocked_allocate (stocked : d.Stocked pool) {i : Instruction}
    (listed : ∀ ref ∈ i.ref?, pool.Lists ref) : (d.allocate i).Stocked pool :=
  ⟨stocked.listed.allocate listed, stocked.handlers, stocked.lines, stocked.table, stocked.names⟩

theorem stocked_placeLast (stocked : d.Stocked pool) (node : NodeId) :
    (d.placeLast node).Stocked pool :=
  ⟨stocked.listed.of_eq (instructionAt_rearrange d node true _), stocked.handlers, stocked.lines,
    stocked.table, stocked.names⟩

theorem stocked_push (stocked : d.Stocked pool) {i : Instruction}
    (listed : ∀ ref ∈ i.ref?, pool.Lists ref) : (Draft.push i d).2.Stocked pool := by
  unfold Draft.push
  split
  · exact stocked
  · exact stocked_placeLast (stocked_allocate stocked listed) _

theorem stocked_placeLabel (stocked : d.Stocked pool) (label : Label) :
    (placeLabel label d).2.Stocked pool := by
  unfold placeLabel
  split
  · exact stocked
  · exact stocked_placeLast stocked _

theorem stocked_addHandler (stocked : d.Stocked pool) {h : Handler}
    (listed : ∀ ref ∈ h.catchType, pool.Lists ref) : (addHandler h d).2.Stocked pool := by
  unfold addHandler
  split
  · exact stocked
  · refine ⟨stocked.listed, fun x member => ?_, stocked.lines, stocked.table, stocked.names⟩
    rcases Array.mem_push.mp member with old | rfl
    · exact stocked.handlers x old
    · exact listed

theorem stocked_markLine (stocked : d.Stocked pool) (known : pool.Knows AttributeKind.lines.name)
    (line : UInt16) : (d.markLine line).Stocked pool := by
  have placed := stocked_placeLast
    (stocked_allocate stocked (Pool.lists_of_none (i := .label) rfl)) d.nodes.size
  exact ⟨placed.listed, placed.handlers, fun _ => known, placed.table, placed.names⟩

theorem stocked_createLocal (stocked : d.Stocked pool) {name : Option String} {type : FieldType}
    (known : d.tracksLocals = true → pool.KnowsLocal name type) (slot : Option UInt16) :
    (d.createLocal name type slot).2.Stocked pool := by
  refine ⟨stocked.listed, stocked.handlers, stocked.lines, stocked.table, ?_⟩
  intro tracked info member
  rcases Array.mem_push.mp member with old | rfl
  · exact stocked.names tracked info old
  · exact known tracked

end Edits

section Operations

theorem provided_push {i : Instruction} : Maintains (Provided base)
    (fun ws => ∀ ref ∈ i.ref?, ws.pool.Lists ref) (push i) fun _ _ => True := by
  refine provided_editing (Q := fun pool => ∀ ref ∈ i.ref?, pool.Lists ref) ?_
  intro pool d listed stocked
  rw [run_discard]
  exact stocked_push stocked listed

theorem provides_push {i : Instruction} (none : i.ref? = none) : Provides base (push i) :=
  fun ws provided _ => provided_push ws provided (Pool.lists_of_none none)

theorem provides_editing {e : Edit α}
    (keeps : ∀ pool d, d.Stocked pool → (e d).2.Stocked pool) : Provides base (editing e) :=
  provided_editing (Q := fun _ => True) fun pool d _ => keeps pool d

theorem provides_fail (fault : Fault) : Provides base (fail fault : Emit α) :=
  preserves_of_eq fun _ => rfl

theorem provides_owner : Provides base owner := preserves_of_eq fun _ => rfl

theorem provides_localInfo (v : Local) : Provides base (localInfo v) :=
  preserves_of_eq fun _ => rfl

/-- The constant of an instruction is interned right before the instruction. -/
theorem provides_interned {x : Interning α} {Holds : Pool → α → Prop} (finds : Finds x Holds)
    {f : α → Instruction} (listed : ∀ pool a, Holds pool a → ∀ ref ∈ (f a).ref?, pool.Lists ref) :
    Provides base (do push (f (← interning x))) :=
  Maintains.bind (provided_interning finds) fun a ws provided held =>
    provided_push ws provided (listed ws.pool a held)

theorem provides_loadConstant (v : Value) : Provides base (loadConstant v) := by
  rcases loadInstruction_cases v with ⟨op, load⟩ | ⟨op, n, -, -, load⟩ | load
  · rw [loadConstant, load]
    refine provides_interned (finds_pure _) ?_
    rintro pool _ rfl _ ⟨⟩
  · rw [loadConstant, load]
    refine provides_interned (finds_pure _) ?_
    rintro pool _ rfl _ ⟨⟩
  · rw [loadConstant, load]
    refine provides_interned ((finds_value v).bind fun _ => finds_pure _) ?_
    rintro pool _ ⟨entry, held, rfl⟩ _ ⟨⟩
    exact HasValue.lists held

theorem provides_field (static dynamic : Opcode) (owner : Option BinaryName) (name : String)
    (type : FieldType) (isStatic : Bool) (adjustment : Int) :
    Provides base (field static dynamic owner name type isStatic adjustment) := by
  refine provides_owner.bind fun self => ?_
  refine Maintains.bind (provided_interning (finds_fieldRef _ _ _)) fun entry ws provided held => ?_
  have listed : ws.pool.Lists entry := HasField.lists held
  split
  all_goals
    refine provided_push ws provided ?_
    rintro _ ⟨⟩
    exact listed

theorem provides_invoke (kind : InvokeKind) (owner : Option RefType) (name : String)
    (descriptor : MethodDescriptor) (isInterface : Bool) :
    Provides base (invoke kind owner name descriptor isInterface) := by
  unfold invoke
  dsimp only
  split
  · exact provides_fail _
  · refine provides_owner.bind fun self => provides_interned (finds_methodRef _ _ _ _) ?_
    rintro pool entry held _ ⟨⟩
    exact HasMethod.lists held

theorem provides_classOperand (op : Opcode) (r : RefType) (adjustment : Int16) :
    Provides base (classOperand op r adjustment) := by
  refine provides_interned (finds_cls r) ?_
  rintro pool entry held _ ⟨⟩
  exact HasClass.lists held

theorem provides_convert (source target : FieldType) (mode : ConvertMode) :
    Provides base (convert source target mode) := by
  unfold convert
  split
  · split
    · split
      · exact preserves_forM fun _ => provides_push rfl
      · exact provides_fail _
    · split
      · exact provides_invoke _ _ _ _ _
      · exact provides_fail _
  · exact provides_fail _

theorem provides_ifCompare (target : Label) (c : Comparison) (type : FieldType) :
    Provides base (ifCompare target c type) := by
  unfold ifCompare
  dsimp only
  split
  · exact provides_push rfl
  · split
    · exact provides_push rfl
    · exact provides_fail _
  all_goals exact (provides_push rfl).bind fun _ => provides_push rfl

theorem provides_lineNumber (line : UInt16) : Provides base (lineNumber line) :=
  Maintains.bind (provided_interning (finds_text _)).discard fun _ =>
    provided_editing (Q := fun pool => pool.Knows AttributeKind.lines.name)
      fun _ _ known stocked => stocked_markLine stocked known line

theorem provides_exceptionHandler (start stop entry : Label) (catchType : Option RefType) :
    Provides base (exceptionHandler start stop entry catchType) := by
  have guarded : ∀ type : Option ConstantRef, Maintains (Provided base)
      (fun ws => ∀ ref ∈ type, ws.pool.Lists ref)
      (editing (Draft.addHandler ⟨start, stop, entry, type⟩)) fun _ _ => True := fun type =>
    provided_editing (Q := fun pool => ∀ ref ∈ type, pool.Lists ref)
      fun _ _ listed stocked => stocked_addHandler stocked listed
  unfold exceptionHandler
  dsimp only
  split
  · rename_i r
    refine Maintains.bind (Q := fun type ws => ∀ ref ∈ type, ws.pool.Lists ref)
      (Maintains.bind (provided_interning (finds_cls r)) fun ref ws provided held => ?_) guarded
    refine ⟨provided, ?_⟩
    rintro _ ⟨⟩ _ ⟨⟩
    exact HasClass.lists held
  · refine Maintains.bind (Q := fun type ws => ∀ ref ∈ type, ws.pool.Lists ref)
      (fun ws provided _ => ⟨provided, ?_⟩) guarded
    rintro _ ⟨⟩
    exact nofun

theorem provides_createLocal (name : Option String) (type : FieldType) (slot : Option UInt16) :
    Provides base (createLocal name type slot) := by
  have declared : Maintains (Provided base)
      (fun ws => ws.builder.draft.tracksLocals = true → ws.pool.KnowsLocal name type)
      (editing fun d => (.ok (d.createLocal name type slot).1, (d.createLocal name type slot).2))
      fun _ _ => True := by
    rintro ⟨pool, draft, owner, receiver, parameters⟩ provided known
    exact ⟨⟨provided.coherent, provided.grown, stocked_createLocal provided.stocked known slot⟩,
      fun _ _ => trivial⟩
  have made := declared.bind fun v =>
    (preserves_of_eq fun _ => rfl : Provides base (pure (Made.var v)))
  refine Maintains.bind (Q := fun tracks ws => ws.builder.draft.tracksLocals = tracks) ?_
    fun tracks => ?_
  · intro ws provided _
    refine ⟨provided, ?_⟩
    rintro _ ⟨⟩
    rfl
  · cases tracks with
    | true =>
        exact Maintains.bind (provided_interning (finds_internLocal name type))
          fun _ ws provided known => made ws provided fun _ => known
    | false =>
        intro ws provided untracked
        exact made ws provided fun tracked => by cases untracked.symm.trans tracked

theorem provides_perform (op : Op Label Local) : Provides base (perform op) := by
  cases op with
  | createLocal name type => exact provides_createLocal name type none
  | createLocalAt name type slot => exact provides_createLocal name type (some slot)
  | createLabel =>
      exact provides_editing fun _ _ stocked =>
        stocked_allocate stocked (Pool.lists_of_none (i := .label) rfl)
  | placeLabel label =>
      exact (provides_editing fun _ _ stocked => stocked_placeLabel stocked label).silently
  | exceptionHandler start stop entry catchType =>
      exact (provides_exceptionHandler start stop entry catchType).silently
  | lineNumber line => exact (provides_lineNumber line).silently
  | loadConstant value => exact (provides_loadConstant value).silently
  | loadLocal v => exact ((provides_localInfo v).bind fun _ => provides_push rfl).silently
  | storeLocal v => exact ((provides_localInfo v).bind fun _ => provides_push rfl).silently
  | increment v amount =>
      refine Preserves.silently ((provides_localInfo v).bind fun info => ?_)
      split
      · exact provides_fail _
      · exact provides_push rfl
  | getField owner name type isStatic =>
      exact (provides_field _ _ owner name type isStatic _).silently
  | putField owner name type isStatic =>
      exact (provides_field _ _ owner name type isStatic _).silently
  | invoke kind owner name descriptor isInterface =>
      exact (provides_invoke kind owner name descriptor isInterface).silently
  | newObject name => exact (provides_classOperand _ _ _).silently
  | newArray element =>
      cases element with
      | base b => exact (provides_push rfl).silently
      | ref r => exact (provides_classOperand _ _ _).silently
  | newMultiArray r dimensions =>
      refine Preserves.silently ?_
      unfold newMultiArray
      split
      · exact provides_fail _
      · refine provides_interned (finds_cls r) ?_
        rintro pool entry held _ ⟨⟩
        exact HasClass.lists held
  | checkCast r => exact (provides_classOperand _ _ _).silently
  | instanceOf r => exact (provides_classOperand _ _ _).silently
  | math opcode =>
      refine Preserves.silently ?_
      split
      · exact provides_push rfl
      · exact provides_fail _
  | convert source target mode => exact (provides_convert source target mode).silently
  | ifCompare target c type => exact (provides_ifCompare target c type).silently
  | ret v =>
      have known : Provides base (discard (localInfo v)) :=
        preserves_of_eq fun ws => by rw [run_discard]; rfl
      exact (known.bind fun _ => provides_push rfl).silently
  | returnValue type => cases type <;> exact (provides_push rfl).silently
  | _ => exact (provides_push rfl).silently

theorem provides_loadReceiver : Provides base loadReceiver := by
  intro ws provided holds
  unfold loadReceiver
  split
  · exact provides_perform _ ws provided holds
  · exact ⟨provided, fun _ _ => trivial⟩

/-- The names of the locals so far are interned when tracking starts, later ones one by one. -/
theorem provides_trackLocals : Provides base trackLocals := by
  rintro ⟨pool, draft, owner, receiver, parameters⟩ provided -
  have finds : Finds (do
      discard (Interning.text "LocalVariableTable")
      draft.locals.toList.forM fun info => internLocal info.name info.type) _ :=
    (finds_text "LocalVariableTable").discard.bind fun _ =>
      finds_forM fun info : LocalInfo => finds_internLocal info.name info.type
  obtain ⟨_, table, names⟩ := finds.made pool
  have grown := provided.interned (finds.interns pool)
  refine ⟨⟨grown.coherent, grown.grown, ?_⟩, fun _ _ => trivial⟩
  exact ⟨grown.stocked.listed, grown.stocked.handlers, grown.stocked.lines, fun _ => table,
    fun _ info member => names info (Array.mem_toList_iff.mpr member)⟩

end Operations

end Emit

namespace Builder

variable {pool : Pool}

/-- A new body looks nothing up. -/
theorem stocked_create {id : Nat} {owner : BinaryName} {descriptor : MethodDescriptor}
    {isStatic : Bool} {b : Builder} (created : create id owner descriptor isStatic = .ok b) :
    b.draft.Stocked pool := by
  have untracked : ∀ {d : Draft}, d.tracksLocals = false → d.tracksLocals ≠ true := by
    intro d off on
    cases off.symm.trans on
  have made : b.draft.tracksLocals = false ∧ b.draft.Stocked pool := by
    refine create_preserves (P := fun d => d.tracksLocals = false ∧ d.Stocked pool) created ?_ ?_ ?_
    · have off : (Draft.empty id).tracksLocals ≠ true := untracked rfl
      refine ⟨rfl, fun n => ?_, fun h member => ?_, fun some => absurd rfl some,
        fun tracked => absurd tracked off, fun tracked => absurd tracked off⟩
      · rw [Draft.instructionAt_eq, Draft.empty, Array.getElem?_empty]
        exact Pool.lists_of_none (i := .label) rfl
      · exact absurd member (Array.not_mem_empty h)
    · rintro d name type slot ⟨off, stocked⟩
      exact ⟨off, Emit.stocked_createLocal stocked (fun on => absurd on (untracked off)) _⟩
    · rintro d slots ⟨off, h⟩
      exact ⟨off, h.listed, h.handlers, h.lines, h.table, h.names⟩
  exact made.2

end Builder

end JvmAssembly
