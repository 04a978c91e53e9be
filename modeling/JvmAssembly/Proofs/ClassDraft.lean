import Mathlib
import JvmAssembly.ClassDraft
import JvmAssembly.Proofs.Builder.Provisions
import JvmAssembly.Proofs.Pool.History

/-!
Finishing a class never misses a constant. All that the class file names is interned before indices
are fixed, and the bodies, built over the pool of the class, have put theirs into it. This holds
however the class came about: bodies may be built side by side, operations may fail, and locals may
be tracked from any time on.
-/
namespace JvmAssembly

open Interning Pool Emit

variable {p q : Pool}

namespace Pool

/-- Indices can run out, but no entry is missing. -/
theorem supplied_assign (p : Pool) (order : IndexOrder) : Supplied (p.assign order) := by
  have all : ∀ (refs : List ConstantRef) (n : Numbering), (∀ ref ∈ refs, ref < p.size) →
      Supplied (p.numberAll n refs) := by
    intro refs
    induction refs with
    | nil => exact fun n _ => supplied_ok n
    | cons ref refs ih =>
        intro n inside
        rw [List.forall_mem_cons] at inside
        have one : Supplied (p.number n ref) := by
          unfold number
          rw [Array.getElem?_eq_getElem inside.1]
          dsimp only
          split
          · exact supplied_error rfl
          · exact supplied_ok _
        rw [numberAll]
        split
        · exact ih _ inside.2
        · exact supplied_error (one _ ‹_›)
  have numbers := all (p.ordered order) ⟨#[], Array.replicate p.size 0, #[none]⟩ fun ref member =>
    List.mem_range.mp ((ordered_perm p order).mem_iff.mp member)
  unfold assign
  split
  · exact supplied_ok _
  · exact supplied_error (numbers _ ‹_›)

end Pool

namespace FieldDraft

theorem finds_intern (f : FieldDraft) :
    Finds f.intern fun p _ => p.Knows f.name.text ∧ p.Knows f.type.render :=
  finds_words _ _

theorem supplied_finish (f : FieldDraft) (indexed : p.Ready)
    (known : p.Knows f.name.text ∧ p.Knows f.type.render) : Supplied (f.finish p) :=
  (indexed.supplied_indexOfText known.1).bind fun _ _ =>
    (indexed.supplied_indexOfText known.2).bind fun _ _ => supplied_ok _

end FieldDraft

namespace MethodDraft

/-- The words for a method, and for its body if it has one. -/
structure Known (m : MethodDraft) (p : Pool) : Prop where
  name : p.Knows m.name.text
  descriptor : p.Knows m.descriptor.render
  code : m.body.isSome = true → p.Knows AttributeKind.code.name

theorem finds_intern (m : MethodDraft) : Finds m.intern fun p _ => m.Known p := by
  have code : Finds (if m.body.isSome then discard (Interning.text AttributeKind.code.name)
      else pure ()) fun p _ => m.body.isSome = true → p.Knows AttributeKind.code.name := by
    split
    · rename_i some
      exact (finds_known _).congr fun p a => ⟨fun known _ => known, fun known => known some⟩
    · rename_i none
      exact (finds_pure ()).congr fun p a => iff_of_true rfl fun some => absurd some none
  refine ((finds_known _).bind fun _ => (finds_known _).bind fun _ => code).congr fun p a => ?_
  constructor
  · rintro ⟨_, name, _, descriptor, code⟩
    exact ⟨name, descriptor, code⟩
  · intro known
    exact ⟨(), known.name, (), known.descriptor, known.code⟩

theorem supplied_finishBody {d : Draft} (indexed : p.Ready) (code : p.Knows AttributeKind.code.name)
    (valid : d.Valid) (stocked : d.Stocked p) : Supplied (finishBody p d) := by
  obtain ⟨supplied, tables⟩ := stocked.supplied_resolve indexed valid
  exact supplied.bind fun c resolved =>
    (Code.supplied_toAttribute indexed (tables c resolved)).bind fun _ _ =>
      AttributeBody.supplied_toAttribute indexed code

theorem supplied_finish (m : MethodDraft) (indexed : p.Ready) (known : m.Known p)
    (bodies : ∀ d ∈ m.body, d.Valid ∧ d.Stocked p) : Supplied (m.finish p) := by
  refine (indexed.supplied_indexOfText known.name).bind fun _ _ =>
    (indexed.supplied_indexOfText known.descriptor).bind fun _ _ => ?_
  cases body : m.body with
  | none => exact supplied_ok _
  | some d =>
      obtain ⟨valid, stocked⟩ := bodies d body
      have code := known.code (by rw [body]; rfl)
      exact (supplied_finishBody indexed code valid stocked).bind fun _ _ => supplied_ok _

end MethodDraft

namespace ClassDraft

/-- What the pool holds for a class by the time indices are fixed. -/
structure Named (c : ClassDraft) (p : Pool) (h : Header) : Prop where
  thisClass : p.HasClass c.name.text h.thisClass
  superclass : Option.Rel (fun name ref => p.HasClass name.text ref) c.superclass h.superclass
  interfaces : List.Forall₂ (fun name ref => p.HasClass name.text ref) c.interfaces h.interfaces
  sourceFile : ∀ file ∈ c.sourceFile, p.Knows AttributeKind.sourceFile.name ∧ p.Knows file
  fields : ∀ f ∈ c.fields, p.Knows f.name.text ∧ p.Knows f.type.render
  methods : ∀ m ∈ c.methods, m.Known p

theorem finds_internHeader (c : ClassDraft) : Finds c.internHeader fun p h =>
    p.HasClass c.name.text h.thisClass ∧
      Option.Rel (fun name ref => p.HasClass name.text ref) c.superclass h.superclass ∧
      List.Forall₂ (fun name ref => p.HasClass name.text ref) c.interfaces h.interfaces := by
  have rest : ∀ self above, Finds (do
      let below ← c.interfaces.mapM fun name => Interning.className name.text
      return Header.mk self above below) _ := fun self above =>
    (finds_mapM fun name : BinaryName => finds_className name.text).bind fun below =>
      finds_pure (Header.mk self above below)
  unfold internHeader
  cases c.superclass with
  | none =>
      refine ((finds_className _).bind fun self => (finds_pure none).bind fun above =>
        rest self above).congr fun p h => ?_
      constructor
      · rintro ⟨self, own, _, rfl, below, others, rfl⟩
        exact ⟨own, .none, others⟩
      · rintro ⟨own, above, others⟩
        obtain ⟨self, above, below⟩ := h
        cases above
        exact ⟨self, own, none, rfl, below, others, rfl⟩
  | some name =>
      refine ((finds_className _).bind fun self => ((finds_className _).map some).bind fun above =>
        rest self above).congr fun p h => ?_
      constructor
      · rintro ⟨self, own, _, ⟨above, held, rfl⟩, below, others, rfl⟩
        exact ⟨own, .some held, others⟩
      · rintro ⟨own, above, others⟩
        obtain ⟨self, above, below⟩ := h
        cases above with
        | some held => exact ⟨self, own, _, ⟨_, held, rfl⟩, below, others, rfl⟩

theorem finds_intern (c : ClassDraft) : Finds c.intern c.Named := by
  have rest : ∀ h, Finds (do
      c.fields.forM FieldDraft.intern
      c.methods.forM MethodDraft.intern
      return h) _ := fun h : Header =>
    (finds_forM fun f : FieldDraft => f.finds_intern).bind fun _ =>
      (finds_forM MethodDraft.finds_intern).bind fun _ => finds_pure h
  have header := c.finds_internHeader
  unfold intern
  cases file : c.sourceFile with
  | none =>
      refine (header.bind fun h => rest h).congr fun p h => ?_
      constructor
      · rintro ⟨h, ⟨self, above, below⟩, _, fields, _, methods, rfl⟩
        exact ⟨self, above, below, by rw [file]; exact nofun, fields, methods⟩
      · intro named
        exact ⟨h, ⟨named.thisClass, named.superclass, named.interfaces⟩, (), named.fields, (),
          named.methods, rfl⟩
  | some file' =>
      refine (header.bind fun h => (finds_known _).bind fun _ => (finds_known _).bind fun _ =>
        rest h).congr fun p h => ?_
      constructor
      · rintro ⟨h, ⟨self, above, below⟩, _, title, _, known, _, fields, _, methods, rfl⟩
        refine ⟨self, above, below, ?_, fields, methods⟩
        rw [file]
        rintro _ ⟨⟩
        exact ⟨title, known⟩
      · intro named
        obtain ⟨title, known⟩ := named.sourceFile file' file
        exact ⟨h, ⟨named.thisClass, named.superclass, named.interfaces⟩, (), title, (), known,
          (), named.fields, (), named.methods, rfl⟩

/-- Laying out a class looks up nothing but what was interned for it and for its bodies. -/
theorem supplied_layOut {c : ClassDraft} {h : Header} (version : Version) (indexed : p.Ready)
    (named : c.Named p h) (bodies : ∀ m ∈ c.methods, ∀ d ∈ m.body, d.Valid ∧ d.Stocked p) :
    Supplied (c.layOut version h p) := by
  have interfaces : Supplied (h.interfaces.mapM p.indexOf) := by
    refine supplied_mapM fun ref member => ?_
    obtain ⟨name, -, held⟩ := exists_of_forall₂ named.interfaces.flip member
    exact indexed.supplied_indexOf (HasClass.lists held)
  have fields : Supplied (c.fields.mapM (·.finish p)) :=
    supplied_mapM fun f member => f.supplied_finish indexed (named.fields f member)
  have methods : Supplied (c.methods.mapM (·.finish p)) :=
    supplied_mapM fun m member =>
      m.supplied_finish indexed (named.methods m member) (bodies m member)
  have source : ∀ file ∈ c.sourceFile,
      Supplied (p.indexOfText file) ∧ ∀ index,
        Supplied ((AttributeBody.sourceFile index).toAttribute p) := by
    intro file given
    obtain ⟨title, known⟩ := named.sourceFile file given
    refine ⟨indexed.supplied_indexOfText known, fun index => ?_⟩
    have titled : p.Knows (AttributeBody.sourceFile index).kind.name := title
    exact AttributeBody.supplied_toAttribute indexed titled
  unfold layOut
  refine (supplied_checkTable _ _).bind fun _ _ => (supplied_checkTable _ _).bind fun _ _ =>
    (supplied_checkTable _ _).bind fun _ _ => ?_
  refine (indexed.supplied_indexOf (HasClass.lists named.thisClass)).bind fun self _ => ?_
  have listed : ∀ ref ∈ h.superclass, p.Lists ref := by
    have above := named.superclass
    generalize c.superclass = name at above
    intro ref given
    rw [Option.mem_def.mp given] at above
    cases above with
    | some held => exact HasClass.lists held
  rcases given : h.superclass with _ | ref
  on_goal 2 => refine (indexed.supplied_indexOf (listed ref given)).bind fun above _ => ?_
  -- What follows is the same with and without a superclass.
  all_goals
    refine interfaces.bind fun _ _ => fields.bind fun _ _ => methods.bind fun _ _ => ?_
    rcases named : c.sourceFile with _ | file
    · exact supplied_ok _
    · exact (source file named).1.bind fun index _ =>
        ((source file named).2 index).bind fun _ _ => supplied_ok _

/-- Finishing a class may fail, but no constant is missing. -/
theorem supplied_finish {c : ClassDraft} (coherent : c.pool.Coherent)
    (bodies : ∀ m ∈ c.methods, ∀ d ∈ m.body, d.Valid ∧ d.Stocked c.pool) (version : Version) :
    Supplied (c.finish version) := by
  have finds := c.finds_intern
  have steps := finds.interns c.pool
  refine (supplied_assign (c.intern c.pool).2 .priority).bind fun q assigned => ?_
  have within := within_assign assigned
  have indexed : q.Ready :=
    ⟨(coherent_of_interned coherent steps).assign assigned, numbered_of_assign assigned⟩
  refine supplied_layOut version indexed (finds.kept within (finds.made c.pool)) ?_
  intro m member d body
  obtain ⟨valid, stocked⟩ := bodies m member d body
  exact ⟨valid, (stocked.mono (within_of_interned steps)).mono within⟩

end ClassDraft

/-! Histories of a class. -/

/-- A class under construction and the bodies that are being built for it. -/
structure Site where
  cls : ClassDraft
  bodies : List Builder

namespace Site

/-- What can be done to a class and to its bodies, which are numbered from zero. -/
inductive Act where
  | startBody (id : Nat) (descriptor : MethodDescriptor) (isStatic : Bool)
  | perform (body : Nat) (op : Op Label Local)
  | loadReceiver (body : Nat)
  | trackLocals (body : Nat)
  | serve (request : Pool.Request)
  | setFlags (flags : AccessFlags .cls)
  | addInterface (name : BinaryName)
  | setSourceFile (file : String)
  | addField (f : FieldDraft)
  /-- Adds a method with the body as it is now, or with none. -/
  | addMethod (flags : AccessFlags .method) (name : UnqualifiedName)
      (descriptor : MethodDescriptor) (body : Option Nat)

/-- A class with nothing in it. -/
def start (flags : AccessFlags .cls) (name : BinaryName) (superclass : Option BinaryName) : Site :=
  ⟨⟨.empty, flags, name, superclass, [], none, [], []⟩, []⟩

/-- Works on a body, over the pool of the class. What was done before a failure stays done. -/
def work {α : Type} (s : Site) (body : Nat) (x : Emit α) : Site :=
  match s.bodies[body]? with
  | none => s
  | some b =>
    match (x ⟨s.cls.pool, b⟩).2 with
    | ⟨pool, b⟩ => ⟨{ s.cls with pool }, s.bodies.set body b⟩

/-- There is no body to work on if its start has failed. -/
def act (s : Site) : Act → Site
  | .startBody id descriptor isStatic =>
    match s.cls.startBody id descriptor isStatic with
    | .ok ws => { s with bodies := s.bodies ++ [ws.builder] }
    | .error _ => s
  | .perform body op => s.work body (Emit.perform op)
  | .loadReceiver body => s.work body Emit.loadReceiver
  | .trackLocals body => s.work body Emit.trackLocals
  | .serve request => { s with cls := { s.cls with pool := s.cls.pool.serve request } }
  | .setFlags flags => { s with cls := { s.cls with flags } }
  | .addInterface name =>
    { s with cls := { s.cls with interfaces := s.cls.interfaces ++ [name] } }
  | .setSourceFile file => { s with cls := { s.cls with sourceFile := some file } }
  | .addField f => { s with cls := { s.cls with fields := s.cls.fields ++ [f] } }
  | .addMethod flags name descriptor body =>
    let draft := body.bind fun k => (s.bodies[k]?).map (·.draft)
    { s with cls := { s.cls with methods := s.cls.methods ++ [⟨flags, name, descriptor, draft⟩] } }

def actAll (s : Site) (acts : List Act) : Site := acts.foldl act s

/-- The pool has all that the bodies look up, those in progress and those of the methods. -/
structure Sound (s : Site) : Prop where
  coherent : s.cls.pool.Coherent
  bodies : ∀ b ∈ s.bodies, b.Built ∧ b.draft.Stocked s.cls.pool
  methods : ∀ m ∈ s.cls.methods, ∀ d ∈ m.body, d.Valid ∧ d.Stocked s.cls.pool

variable {s : Site} {α : Type}

theorem sound_start (flags : AccessFlags .cls) (name : BinaryName)
    (superclass : Option BinaryName) : (start flags name superclass).Sound :=
  ⟨coherent_empty, List.forall_mem_nil _, List.forall_mem_nil _⟩

theorem Sound.grow (sound : s.Sound) {pool : Pool} (coherent : pool.Coherent)
    (within : s.cls.pool.Within pool) : Sound { s with cls := { s.cls with pool } } where
  coherent := coherent
  bodies b member := (sound.bodies b member).imp_right (·.mono within)
  methods m member d body := (sound.methods m member d body).imp_right (·.mono within)

/-- One body is worked on; the others only see the pool grow. -/
theorem Sound.work (sound : s.Sound) (body : Nat) {x : Emit α}
    (provides : Emit.Provides s.cls.pool x)
    (built : ∀ b : Builder, b.Built → (x ⟨s.cls.pool, b⟩).2.builder.Built) :
    (s.work body x).Sound := by
  unfold Site.work
  cases there : s.bodies[body]? with
  | none => exact sound
  | some b =>
      obtain ⟨before, stocked⟩ := sound.bodies b (List.mem_of_getElem? there)
      have after := (provides ⟨s.cls.pool, b⟩ ⟨sound.coherent, fun _ _ found => found, stocked⟩
        trivial).1
      have still := built b before
      dsimp only
      generalize x ⟨s.cls.pool, b⟩ = result at after still ⊢
      obtain ⟨outcome, pool, b'⟩ := result
      have grown := sound.grow after.coherent after.grown
      refine ⟨grown.coherent, fun other member => ?_, grown.methods⟩
      rcases List.mem_or_eq_of_mem_set member with old | rfl
      · exact grown.bodies other old
      · exact ⟨still, after.stocked⟩

theorem Sound.act (sound : s.Sound) (a : Act) : (s.act a).Sound := by
  cases a with
  | startBody id descriptor isStatic =>
      rw [Site.act, ClassDraft.startBody]
      cases created : Builder.create id s.cls.name descriptor isStatic with
      | error fault => exact sound
      | ok b =>
          refine ⟨sound.coherent, fun b' member => ?_, sound.methods⟩
          rcases List.mem_append.mp member with old | new
          · exact sound.bodies b' old
          · cases List.mem_singleton.mp new
            exact ⟨.create created, Builder.stocked_create created⟩
  | perform body op =>
      exact sound.work body (Emit.provides_perform op) fun _ built => .perform _ op built
  | loadReceiver body =>
      exact sound.work body Emit.provides_loadReceiver fun _ built => .loadReceiver _ built
  | trackLocals body =>
      exact sound.work body Emit.provides_trackLocals fun _ built => .trackLocals _ built
  | serve request =>
      exact sound.grow (sound.coherent.serve request) (within_serve _ request)
  | addMethod flags name descriptor body =>
      refine ⟨sound.coherent, sound.bodies, fun m member d given => ?_⟩
      rcases List.mem_append.mp member with old | new
      · exact sound.methods m old d given
      · cases List.mem_singleton.mp new
        obtain ⟨k, -, found⟩ := Option.bind_eq_some_iff.mp (Option.mem_def.mp given)
        obtain ⟨b, there, rfl⟩ := Option.map_eq_some_iff.mp found
        obtain ⟨built, stocked⟩ := sound.bodies b (List.mem_of_getElem? there)
        exact ⟨built.emitted.reachable.valid, stocked⟩
  | setFlags | addInterface | setSourceFile | addField =>
      exact ⟨sound.coherent, sound.bodies, sound.methods⟩

theorem Sound.actAll (sound : s.Sound) (acts : List Act) : (s.actAll acts).Sound :=
  acts.foldlRecOn Site.act sound fun _ before a _ => before.act a

/-- However a class came about, it is finished, or there is another reason than a constant that is
missing. -/
theorem finish_actAll (flags : AccessFlags .cls) (name : BinaryName)
    (superclass : Option BinaryName) (acts : List Act) (version : Version) :
    (∃ f, ((start flags name superclass).actAll acts).cls.finish version = .ok f) ∨
      ∃ fault, ((start flags name superclass).actAll acts).cls.finish version = .error fault ∧
        fault.isMissing = false := by
  have sound := (sound_start flags name superclass).actAll acts
  have supplied := ClassDraft.supplied_finish sound.coherent sound.methods version
  cases finished : ((start flags name superclass).actAll acts).cls.finish version with
  | ok f => exact .inl ⟨f, rfl⟩
  | error fault => exact .inr ⟨fault, rfl, supplied fault finished⟩

end Site

end JvmAssembly
