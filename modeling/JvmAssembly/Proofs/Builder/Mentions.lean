import Mathlib
import JvmAssembly.Proofs.Builder.Edits
import JvmAssembly.Proofs.Builder.Retracing
import JvmAssembly.Proofs.Disassembly.Mentions
import JvmAssembly.Proofs.Pool.History

/-!
What a builder names. An operation that names a member or a class interns its spelling and keeps the
entry. The entry goes on to mean the same, so a copy of a body names what the body names, whatever
else has come into the pool.
-/
namespace JvmAssembly

open Pool

namespace Pool.Extends

variable {p q : Pool} {table : IndexTable} {m : Mention}

theorem className (grown : p.Extends q) {index : UInt16} {name : String}
    (found : Constants.className ⟨p, table⟩ index = .ok name) :
    Constants.className ⟨q, table⟩ index = .ok name := by
  obtain ⟨ref, known, found⟩ := bind_eq_ok.mp found
  exact bind_eq_ok.mpr ⟨ref, known, grown.getClassName found⟩

/-- What an index of an earlier pool names it names later. -/
theorem mention (grown : p.Extends q) {x : Decoded}
    (named : x.mention ⟨p, table⟩ = some (.ok m)) : x.mention ⟨q, table⟩ = some (.ok m) := by
  cases x with
  | member op index =>
      obtain ⟨_, found, same⟩ := bind_eq_ok.mp (Option.some.inj named)
      obtain ⟨member, found, plain⟩ := bind_eq_ok.mp found
      obtain ⟨ref, known, found⟩ := bind_eq_ok.mp found
      refine congrArg some (bind_eq_ok.mpr ⟨_, bind_eq_ok.mpr ⟨member, ?_, plain⟩, same⟩)
      exact bind_eq_ok.mpr ⟨ref, known, grown.getMember found⟩
  | cls op index | multiNewArray index dimensions =>
      obtain ⟨name, found, same⟩ := bind_eq_ok.mp (Option.some.inj named)
      exact congrArg some (bind_eq_ok.mpr ⟨name, grown.className found, same⟩)
  | _ => cases named

theorem mention_row (grown : p.Extends q) {row : HandlerRow}
    (named : row.mention ⟨p, table⟩ = .ok m) : row.mention ⟨q, table⟩ = .ok m := by
  unfold HandlerRow.mention at named ⊢
  by_cases all : row.catchType = 0
  · rwa [if_pos all] at named ⊢
  · rw [if_neg all] at named ⊢
    obtain ⟨name, found, same⟩ := bind_eq_ok.mp named
    exact bind_eq_ok.mpr ⟨name, grown.className found, same⟩

end Pool.Extends

namespace Mention

variable {ms : List Mention}

theorem filter_catches (catches : ∀ m ∈ ms, m.isCatch = true) :
    ms.filter (·.isCatch) = ms ∧ ms.filter (!·.isCatch) = [] := by
  refine ⟨List.filter_eq_self.mpr catches, List.filter_eq_nil_iff.mpr fun m member => ?_⟩
  rw [catches m member]
  decide

theorem filter_others (others : ∀ m ∈ ms, m.isCatch = false) :
    ms.filter (·.isCatch) = [] ∧ ms.filter (!·.isCatch) = ms := by
  refine ⟨List.filter_eq_nil_iff.mpr fun m member => ?_, List.filter_eq_self.mpr fun m member => ?_⟩
  · rw [others m member]
    decide
  · rw [others m member]
    rfl

end Mention

/-- What an instruction of a draft names, if it names anything. -/
def Instruction.mention (pool : Pool) : Instruction → Option (Except Fault Mention)
  | .constant op entry _ =>
    if Format.ofOpcode op = .member then some (.member op <$> pool.getMember entry)
    else if Format.ofOpcode op = .cls then some (.cls op <$> pool.getClassName entry)
    else none
  | .invoke op entry _ _ => some (.member op <$> pool.getMember entry)
  | .multiNewArray entry dimensions =>
    some ((.multiNewArray · dimensions) <$> pool.getClassName entry)
  | _ => none

def Handler.mention (pool : Pool) (h : Handler) : Except Fault Mention :=
  match h.catchType with
  | none => .ok (.catches none)
  | some entry => (fun name => .catches (some name)) <$> pool.getClassName entry

namespace Draft

/-- The instructions of a draft in the order of their making, whether or not they have a place. -/
def instructions (d : Draft) : List Instruction := d.nodes.toList.map (·.instruction)

theorem instructions_allocate (d : Draft) (i : Instruction) :
    (d.allocate i).instructions = d.instructions ++ [i] := by
  rw [instructions, allocate, Array.toList_push, List.map_append]
  rfl

theorem instructions_placeLast (d : Draft) (node : NodeId) :
    (d.placeLast node).instructions = d.instructions := by
  refine List.ext_getElem? fun n => ?_
  simp only [instructions, placeLast, markPlaced, List.getElem?_map, Array.getElem?_toList,
    Array.getElem?_modify]
  split
  · cases d.nodes[n]? <;> rfl
  · rfl

end Draft

namespace Emit

open Draft Interning

variable {α β : Type} {ms ms' : List Mention} {m : Mention} {ws ws' ws'' : Workspace}

/-- Instructions and handlers have come to a workspace. They name the given things, there and in
every pool that finds what the pool there finds. -/
structure Adds (ms : List Mention) (ws ws' : Workspace) : Prop where
  within : ws.pool.Within ws'.pool
  owner : ws'.builder.owner = ws.builder.owner
  added : ∃ new caught,
    ws'.builder.draft.instructions = ws.builder.draft.instructions ++ new ∧
    ws'.builder.draft.handlers.toList = ws.builder.draft.handlers.toList ++ caught ∧
    ∀ later : Pool, later.Coherent → ws'.pool.Within later →
      new.filterMap (·.mention later) = (ms.filter (!·.isCatch)).map .ok ∧
      caught.map (·.mention later) = (ms.filter (·.isCatch)).map .ok

theorem Adds.refl (ws : Workspace) : Adds [] ws ws where
  within _ _ found := found
  owner := rfl
  added := ⟨[], [], (List.append_nil _).symm, (List.append_nil _).symm, fun _ _ _ => ⟨rfl, rfl⟩⟩

theorem Adds.trans (first : Adds ms ws ws') (second : Adds ms' ws' ws'') :
    Adds (ms ++ ms') ws ws'' where
  within _ _ found := second.within (first.within found)
  owner := second.owner.trans first.owner
  added := by
    obtain ⟨new, caught, instructions, handlers, named⟩ := first.added
    obtain ⟨new', caught', instructions', handlers', named'⟩ := second.added
    refine ⟨new ++ new', caught ++ caught', ?_, ?_, fun later coherent within => ?_⟩
    · rw [instructions', instructions, List.append_assoc]
    · rw [handlers', handlers, List.append_assoc]
    · obtain ⟨code, rows⟩ := named later coherent fun _ _ found => within (second.within found)
      obtain ⟨code', rows'⟩ := named' later coherent within
      rw [List.filterMap_append, List.filter_append, List.map_append, List.map_append,
        List.filter_append, List.map_append, code, code', rows, rows']
      exact ⟨rfl, rfl⟩

theorem adds_pool {pool : Pool} (within : ws.pool.Within pool) :
    Adds [] ws ⟨pool, ws.builder⟩ where
  within := within
  owner := rfl
  added := ⟨[], [], (List.append_nil _).symm, (List.append_nil _).symm, fun _ _ _ => ⟨rfl, rfl⟩⟩

/-- What an action adds, of a list of things to name. If it fails, it has got part of the way. -/
def Yields (ms : List Mention) (x : Emit α) (ws : Workspace) : Prop :=
  ∃ done, done <+: ms ∧ Adds done ws (x ws).2 ∧ ∀ a, (x ws).1 = .ok a → done = ms

theorem Yields.bind {x : Emit α} {f : α → Emit β} (first : Yields ms x ws)
    (later : ∀ a ws', ws'.builder.owner = ws.builder.owner → Yields ms' (f a) ws') :
    Yields (ms ++ ms') (x >>= f) ws := by
  obtain ⟨done, part, adds, complete⟩ := first
  unfold Yields
  rw [run_bind]
  generalize x ws = result at adds complete
  obtain ⟨fault | a, ws'⟩ := result
  · exact ⟨done, part.trans (List.prefix_append _ _), adds, fun _ ok => by cases ok⟩
  · obtain ⟨done', part', adds', complete'⟩ := later a ws' adds.owner
    cases complete a rfl
    refine ⟨ms ++ done', (List.prefix_append_right_inj _).mpr part', adds.trans adds', ?_⟩
    intro b ok
    rw [complete' b ok]

/-- Whatever comes of it, nothing is named. -/
theorem yields_nil {x : Emit α} (adds : Adds [] ws (x ws).2) : Yields [] x ws :=
  ⟨[], List.prefix_refl _, adds, fun _ _ => rfl⟩

theorem yields_pure (a : α) : Yields [] (pure a : Emit α) ws := yields_nil (.refl ws)

theorem yields_localInfo (v : Local) : Yields [] (localInfo v) ws := yields_nil (.refl ws)

theorem yields_fail (fault : Fault) : Yields ms (fail fault : Emit α) ws :=
  ⟨[], List.nil_prefix, .refl ws, fun _ ok => by cases ok⟩

theorem Yields.silently {x : Emit Unit} (h : Yields ms x ws) : Yields ms (silently x) ws := by
  rw [← List.append_nil ms]
  exact h.bind fun _ _ _ => yields_pure _

theorem yields_forM {xs : List β} {f : β → Emit Unit} (each : ∀ x ws, Yields [] (f x) ws) :
    Yields [] (xs.forM f) ws := by
  induction xs generalizing ws with
  | nil => exact yields_pure ()
  | cons x xs ih => exact (each x ws).bind fun _ _ _ => ih

theorem yields_interning {x : Interning α} {f : α → Emit β} (interns : Interns x)
    (later : Yields ms (f (x ws.pool).1) ⟨(x ws.pool).2, ws.builder⟩) :
    Yields ms (interning x >>= f) ws := by
  obtain ⟨done, part, adds, complete⟩ := later
  exact ⟨done, part, (adds_pool (within_of_interned (interns ws.pool))).trans adds, complete⟩

/-- An edit that adds no more than labels. -/
theorem yields_editing {e : Edit α} (new : List Instruction)
    (silent : ∀ later, new.filterMap (·.mention later) = [])
    (instructions : (e ws.builder.draft).2.instructions = ws.builder.draft.instructions ++ new)
    (handlers : (e ws.builder.draft).2.handlers = ws.builder.draft.handlers) :
    Yields [] (editing e) ws := by
  refine yields_nil ⟨fun _ _ found => found, rfl, new, [], instructions, ?_, fun later _ _ => ?_⟩
  · rw [List.append_nil]
    exact congrArg Array.toList handlers
  · exact ⟨silent later, rfl⟩

/-- An instruction that names a thing is added or refused. -/
theorem yields_push {i : Instruction} (others : ∀ m ∈ ms, m.isCatch = false)
    (named : ∀ later : Pool, later.Coherent → ws.pool.Within later →
      (i.mention later).toList = ms.map .ok) : Yields ms (push i) ws := by
  unfold Yields push
  rw [editing_eq, run_discard, Draft.push]
  cases ws.builder.draft.checkInstruction i with
  | error fault => exact ⟨[], List.nil_prefix, .refl ws, fun _ ok => by cases ok⟩
  | ok _ =>
      refine ⟨ms, List.prefix_refl _, ⟨fun _ _ found => found, rfl, [i], [], ?_, ?_, ?_⟩,
        fun _ _ => rfl⟩
      · exact (instructions_placeLast _ _).trans (instructions_allocate _ i)
      · exact (List.append_nil _).symm
      · intro later coherent within
        rw [List.filterMap_eq_flatMap_toList, List.flatMap_singleton, named later coherent within,
          (Mention.filter_others others).1, (Mention.filter_others others).2]
        exact ⟨rfl, rfl⟩

theorem yields_silent {i : Instruction} (silent : ∀ later, i.mention later = none) :
    Yields [] (push i) ws := by
  refine yields_push (List.forall_mem_nil _) fun later _ _ => ?_
  rw [silent later]
  rfl

/-- An instruction with an entry that was interned for it names what the entry spells. -/
theorem yields_interned {x : Interning ConstantRef} {Holds : Pool → ConstantRef → Prop}
    (finds : Finds x Holds) {i : ConstantRef → Instruction} (other : m.isCatch = false)
    (resolves : ∀ later ref, later.Coherent → Holds later ref →
      (i ref).mention later = some (.ok m)) :
    Yields [m] (do push (i (← interning x))) ws := by
  refine yields_interning finds.interns ?_
  refine yields_push (List.forall_mem_singleton.mpr other) fun later coherent within => ?_
  rw [resolves later _ coherent (finds.kept within (finds.made ws.pool))]
  rfl

theorem yields_owner {f : BinaryName → Emit α} (later : Yields ms (f ws.builder.owner) ws) :
    Yields ms (owner >>= f) ws := later

theorem yields_classOperand {op : Opcode} (formed : Format.ofOpcode op = .cls) (r : RefType)
    (adjustment : Int16) : Yields [.cls op r.className] (classOperand op r adjustment) ws := by
  have other : Format.ofOpcode op ≠ .member := by
    rw [formed]
    decide
  refine yields_interned (i := (.constant op · adjustment)) (finds_cls r) rfl ?_
  intro later ref coherent held
  rw [Instruction.mention, if_neg other, if_pos formed, coherent.getClassName held]
  rfl

theorem yields_field {static dynamic : Opcode} (formed : Format.ofOpcode static = .member)
    (formed' : Format.ofOpcode dynamic = .member) (owner : Option BinaryName) (name : String)
    (type : FieldType) (isStatic : Bool) (adjustment : Int) :
    Yields [.member (if isStatic then static else dynamic)
        ⟨(owner.map (·.text)).getD ws.builder.owner.text, name, type.render, false⟩]
      (field static dynamic owner name type isStatic adjustment) ws := by
  have spelled : (owner.map (·.text)).getD ws.builder.owner.text =
      (owner.getD ws.builder.owner).text := by
    cases owner <;> rfl
  have resolves : ∀ {op : Opcode} {growth : Int16} (later : Pool) (ref : ConstantRef),
      Format.ofOpcode op = .member → later.Coherent →
      later.HasField (owner.getD ws.builder.owner).text name type.render ref →
      (Instruction.constant op ref growth).mention later = some (.ok (.member op
        ⟨(owner.getD ws.builder.owner).text, name, type.render, false⟩)) := by
    intro op growth later ref formed coherent held
    rw [Instruction.mention, if_pos formed, coherent.getMember_field held]
    rfl
  rw [spelled]
  refine yields_owner ?_
  cases isStatic with
  | true =>
      exact yields_interned (finds_fieldRef _ name type) rfl fun later ref coherent held =>
        resolves later ref formed coherent held
  | false =>
      exact yields_interned (finds_fieldRef _ name type) rfl fun later ref coherent held =>
        resolves later ref formed' coherent held

theorem yields_invoke (kind : InvokeKind) (owner : Option RefType) (name : String)
    (descriptor : MethodDescriptor) (isInterface : Bool) :
    Yields [.member kind.opcode ⟨(owner.map (·.className)).getD ws.builder.owner.text, name,
        descriptor.render, isInterface⟩]
      (invoke kind owner name descriptor isInterface) ws := by
  have spelled : (owner.map (·.className)).getD ws.builder.owner.text =
      (owner.getD (.object ws.builder.owner)).className := by
    cases owner <;> rfl
  rw [spelled]
  unfold invoke
  dsimp only
  split
  · exact yields_fail _
  · refine yields_owner (yields_interned (finds_methodRef _ name descriptor isInterface) rfl ?_)
    intro later ref coherent held
    rw [Instruction.mention, coherent.getMember_method held]
    rfl

theorem yields_loadConstant (value : Value) : Yields [] (loadConstant value) ws := by
  refine yields_interning (interns_loadInstruction value) (yields_silent fun later => ?_)
  rcases loadInstruction_cases value with ⟨op, load⟩ | ⟨op, n, -, -, load⟩ | load
  · rw [load]
    rfl
  · rw [load]
    rfl
  · rw [load]
    cases value <;> rfl

theorem yields_convert (source target : FieldType) (mode : ConvertMode) :
    Yields (Conversion.mention source target mode).toList (convert source target mode) ws := by
  cases source with
  | ref r => exact yields_fail _
  | base s =>
      cases target with
      | ref r => exact yields_fail _
      | base t =>
          cases mode with
          | normal =>
              unfold convert
              dsimp only
              split
              · exact yields_forM fun op ws => yields_silent fun _ => rfl
              · exact yields_fail _
          | bits | rawBits =>
              unfold convert Conversion.mention
              dsimp only
              rw [if_neg (by decide)]
              cases Conversion.bitsHelper? _ s t with
              | none => exact yields_fail _
              | some found => exact yields_invoke .static (some (.object found.1)) found.2 _ false

theorem yields_addHandler {h : Handler} (catches : m.isCatch = true)
    (named : ∀ later : Pool, later.Coherent → ws.pool.Within later → h.mention later = .ok m) :
    Yields [m] (editing (addHandler h)) ws := by
  unfold Yields
  rw [editing_eq, addHandler]
  cases ws.builder.draft.checkHandler h with
  | error fault => exact ⟨[], List.nil_prefix, .refl ws, fun _ ok => by cases ok⟩
  | ok _ =>
      refine ⟨[m], List.prefix_refl _, ⟨fun _ _ found => found, rfl, [], [h], ?_, ?_, ?_⟩,
        fun _ _ => rfl⟩
      · exact (List.append_nil _).symm
      · exact Array.toList_push
      · intro later coherent within
        rw [List.map_singleton, named later coherent within, List.filter_singleton,
          List.filter_singleton, catches]
        exact ⟨rfl, rfl⟩

theorem yields_exceptionHandler (start stop entry : Label) (catchType : Option RefType) :
    Yields [.catches (catchType.map (·.className))]
      (exceptionHandler start stop entry catchType) ws := by
  cases catchType with
  | none => exact yields_addHandler rfl fun _ _ _ => rfl
  | some r =>
      unfold exceptionHandler
      dsimp only
      rw [bind_map_left]
      refine yields_interning (interns_cls r) (yields_addHandler rfl ?_)
      intro later coherent within
      have held := (finds_cls r).kept within ((finds_cls r).made ws.pool)
      exact bind_eq_ok.mpr ⟨_, coherent.getClassName held, rfl⟩

theorem yields_ifCompare (target : Label) (c : Comparison) (type : FieldType) :
    Yields [] (ifCompare target c type) ws := by
  have both : ∀ op op', Yields [] (do simple op; branch op' target) ws := fun op op' =>
    Yields.bind (yields_silent fun _ => rfl) fun _ _ _ => yields_silent fun _ => rfl
  unfold ifCompare
  dsimp only
  split
  · exact yields_silent fun _ => rfl
  · split
    · exact yields_silent fun _ => rfl
    · exact yields_fail _
  · exact both _ _
  · exact both _ _
  · exact both _ _

theorem yields_createLocal (name : Option String) (type : FieldType) (slot : Option UInt16) :
    Yields [] (createLocal name type slot) ws := by
  have declared : ∀ ws, Yields [] (editing fun d =>
      (.ok (d.createLocal name type slot).1, (d.createLocal name type slot).2)) ws :=
    fun ws => yields_editing [] (fun _ => rfl) (List.append_nil _).symm rfl
  have made : ∀ ws, Yields [] (editing (fun d =>
      (.ok (d.createLocal name type slot).1, (d.createLocal name type slot).2)) >>=
      fun v => pure (Made.var v)) ws :=
    fun ws => (declared ws).bind fun _ _ _ => yields_pure _
  refine Yields.bind (yields_nil (.refl ws)) fun tracks ws' _ => ?_
  dsimp only
  split
  · exact yields_interning (interns_internLocal name type) (made _)
  · exact made _

theorem yields_createLabel : Yields [] (perform .createLabel) ws :=
  yields_editing [.label] (fun _ => rfl) (instructions_allocate _ .label) rfl

theorem yields_placeLabel (label : Label) : Yields [] (editing (placeLabel label)) ws := by
  have same : ∀ d, (placeLabel label d).2.instructions = d.instructions ∧
      (placeLabel label d).2.handlers = d.handlers := by
    intro d
    unfold placeLabel
    cases d.checkPlaceable label with
    | error fault => exact ⟨rfl, rfl⟩
    | ok _ => exact ⟨instructions_placeLast d label.node, rfl⟩
  refine yields_editing [] (fun _ => rfl) ?_ (same _).2
  rw [List.append_nil]
  exact (same _).1

theorem yields_lineNumber (line : UInt16) : Yields [] (lineNumber line) ws := by
  refine Yields.bind (yields_nil ?_) fun _ ws' _ => yields_editing [.label] (fun _ => rfl) ?_ rfl
  · rw [run_discard]
    exact adds_pool (within_of_interned (interns_text _ ws.pool))
  · exact (instructions_placeLast _ _).trans (instructions_allocate _ .label)

/-- Each operation adds what names the same things as it does. -/
theorem yields_perform (op : Op Label Local) :
    Yields (op.mention ws.builder.owner.text).toList (perform op) ws := by
  cases op with
  | createLocal name type => exact yields_createLocal name type none
  | createLocalAt name type slot => exact yields_createLocal name type (some slot)
  | createLabel => exact yields_createLabel
  | placeLabel label => exact (yields_placeLabel label).silently
  | exceptionHandler start stop entry catchType =>
      exact (yields_exceptionHandler start stop entry catchType).silently
  | lineNumber line => exact (yields_lineNumber line).silently
  | loadConstant value => exact (yields_loadConstant value).silently
  | loadLocal v | storeLocal v =>
      exact ((yields_localInfo v).bind fun _ _ _ => yields_silent fun _ => rfl).silently
  | increment v amount =>
      refine Yields.silently ((yields_localInfo v).bind fun info _ _ => ?_)
      split
      · exact yields_fail _
      · exact yields_silent fun _ => rfl
  | getField owner name type isStatic =>
      exact (yields_field (by decide) (by decide) owner name type isStatic _).silently
  | putField owner name type isStatic =>
      exact (yields_field (by decide) (by decide) owner name type isStatic _).silently
  | invoke kind owner name descriptor isInterface =>
      exact (yields_invoke kind owner name descriptor isInterface).silently
  | newObject name => exact (yields_classOperand (by decide) (.object name) 1).silently
  | newArray element =>
      cases element with
      | base b => exact (yields_silent fun _ => rfl).silently
      | ref r => exact (yields_classOperand (by decide) r 0).silently
  | newMultiArray r dimensions =>
      refine Yields.silently ?_
      unfold newMultiArray
      split
      · exact yields_fail _
      · refine yields_interned (i := (.multiNewArray · dimensions)) (finds_cls r) rfl ?_
        intro later ref coherent held
        rw [Instruction.mention, coherent.getClassName held]
        rfl
  | checkCast r => exact (yields_classOperand (by decide) r 0).silently
  | instanceOf r => exact (yields_classOperand (by decide) r 0).silently
  | math opcode =>
      refine Yields.silently ?_
      split
      · exact yields_silent fun _ => rfl
      · exact yields_fail _
  | convert source target mode => exact (yields_convert source target mode).silently
  | ifCompare target c type => exact (yields_ifCompare target c type).silently
  | ret v =>
      refine Yields.silently (Yields.bind (yields_nil ?_) fun _ _ _ => yields_silent fun _ => rfl)
      rw [run_discard]
      exact .refl ws
  | returnValue type => cases type <;> exact (yields_silent fun _ => rfl).silently
  | _ => exact (yields_silent fun _ => rfl).silently

theorem mention_map {lab loc lab' loc' : Type} {self : String} (f : lab → lab') (g : loc → loc')
    (op : Op lab loc) : (op.map f g).mention self = op.mention self := by
  cases op with
  | newArray element => cases element <;> rfl
  | _ => rfl

theorem yields_run (b : Bindings) (ops : List (Op (Handle Label) (Handle Local))) :
    Yields (ops.filterMap (Op.mention ws.builder.owner.text)) (run b ops) ws := by
  induction ops generalizing b ws with
  | nil => exact yields_pure ()
  | cons op ops ih =>
      have first := @yields_perform ws (op.map (b.label ws.builder.draft) (b.var ws.builder.draft))
      rw [mention_map] at first
      have unrolled : run b (op :: ops) ws =
          (perform (op.map (b.label ws.builder.draft) (b.var ws.builder.draft)) >>= fun made =>
            run (b.add made) ops) ws := by
        rw [run, run_bind]
        generalize perform _ ws = result
        obtain ⟨fault | made, ws'⟩ := result
        · rfl
        · rfl
      rw [List.filterMap_eq_flatMap_toList, List.flatMap_cons, ← List.filterMap_eq_flatMap_toList]
      unfold Yields
      rw [unrolled]
      refine first.bind fun made ws' same => ?_
      rw [← same]
      exact ih (b.add made)

end Emit

section Copies

variable {k : Constants} {m : Mention}

theorem isCatch_of_row {row : HandlerRow} (named : row.mention k = .ok m) : m.isCatch = true := by
  unfold HandlerRow.mention at named
  split at named
  · cases named
    rfl
  · obtain ⟨name, _, same⟩ := bind_eq_ok.mp named
    cases same
    rfl

theorem isCatch_of_decoded {x : Decoded} (named : x.mention k = some (.ok m)) :
    m.isCatch = false := by
  cases x with
  | member op index | cls op index | multiNewArray index dimensions =>
      obtain ⟨_, _, same⟩ := bind_eq_ok.mp (Option.some.inj named)
      cases same
      rfl
  | _ => cases named

/-- As far as a copy gets, it names what the original names. -/
def Retold (original copy : List (Except Fault Mention)) (complete : Prop) : Prop :=
  copy <+: original ∧ (∀ m ∈ copy, ∃ named, m = .ok named) ∧ (complete → copy = original)

theorem retold_map {original rest : List (Except Fault Mention)} {done : List Mention}
    {complete : Prop} (all : original = done.map .ok ++ rest) (whole : complete → rest = []) :
    Retold original (done.map .ok) complete := by
  refine ⟨⟨rest, all.symm⟩, fun m member => ?_, fun done => ?_⟩
  · obtain ⟨named, _, same⟩ := List.mem_map.mp member
    exact ⟨named, same.symm⟩
  · rw [all, whole done, List.append_nil]

/-- The rows of the exception table come first. -/
theorem retold_both {rows code rest : List (Except Fault Mention)} {done : List Mention}
    {complete : Prop} (all : rows ++ code = done.map .ok ++ rest)
    (catches : ∀ m, .ok m ∈ rows → m.isCatch = true)
    (others : ∀ m, .ok m ∈ code → m.isCatch = false) (whole : complete → rest = []) :
    Retold rows ((done.filter (·.isCatch)).map .ok) complete ∧
      Retold code ((done.filter (!·.isCatch)).map .ok) complete := by
  rcases List.append_eq_append_iff.mp all with ⟨part, named, last⟩ | ⟨part, named, last⟩
  · -- All rows have been copied, and some of the code.
    obtain ⟨first, second, rfl, rfl, rfl⟩ := List.map_eq_append_iff.mp named
    have front := Mention.filter_catches fun m member => catches m (List.mem_map_of_mem member)
    have back : ∀ m ∈ second, m.isCatch = false := by
      intro m member
      refine others m ?_
      rw [last]
      exact List.mem_append_left _ (List.mem_map_of_mem member)
    rw [List.filter_append, List.filter_append, front.1, front.2,
      (Mention.filter_others back).1, (Mention.filter_others back).2, List.append_nil,
      List.nil_append]
    exact ⟨retold_map (List.append_nil _).symm fun _ => rfl, retold_map last whole⟩
  · have front : ∀ m ∈ done, m.isCatch = true := by
      intro m member
      refine catches m ?_
      rw [named]
      exact List.mem_append_left _ (List.mem_map_of_mem member)
    rw [(Mention.filter_catches front).1, (Mention.filter_catches front).2]
    have none : complete → part = [] ∧ code = [] := fun finished =>
      List.append_eq_nil_iff.mp (last ▸ whole finished)
    exact ⟨retold_map named fun finished => (none finished).1,
      retold_map rfl fun finished => (none finished).2⟩

/-- What has been added for part of a body names what that part names. -/
theorem Emit.Adds.retold {done : List Mention} {ws ws' : Workspace} (adds : Adds done ws ws')
    (sound : ws'.pool.Sound) {b : Body} {rest : List (Except Fault Mention)}
    (all : b.mentions k = done.map .ok ++ rest) {complete : Prop} (whole : complete → rest = []) :
    ∃ new caught,
      ws'.builder.draft.instructions = ws.builder.draft.instructions ++ new ∧
      ws'.builder.draft.handlers.toList = ws.builder.draft.handlers.toList ++ caught ∧
      ∀ more,
        Retold (b.handlers.map (·.mention k)) (caught.map (·.mention (ws'.pool.serveAll more)))
          complete ∧
        Retold ((Listing.decode b.code).body.filterMap (·.mention k))
          (new.filterMap (·.mention (ws'.pool.serveAll more))) complete := by
  obtain ⟨new, caught, instructions, handlers, named⟩ := adds.added
  refine ⟨new, caught, instructions, handlers, fun more => ?_⟩
  obtain ⟨code, rows⟩ := named _ (sound.serveAll more).coherent (within_serveAll ws'.pool more)
  rw [code, rows]
  refine retold_both all (fun m member => ?_) (fun m member => ?_) whole
  · obtain ⟨row, _, same⟩ := List.mem_map.mp member
    exact isCatch_of_row same
  · obtain ⟨x, _, same⟩ := List.mem_filterMap.mp member
    exact isCatch_of_decoded same

end Copies

/-- A body is copied into a builder of its own class. Whatever came into the pool between the time
of its indices and the copy, and whatever comes in later, the instructions and handlers of the copy
name what the indices name, by the same opcodes. -/
theorem Body.mentions_copyInto {p : Pool} (started : p.Started) (before between : List Request)
    (table : IndexTable) (b : Body) (builder : Builder) (own : builder.owner.text = b.className)
    (arguments : Option (List Local)) (exit : Option Label) :
    ∃ copied ws new caught,
      b.copyInto table arguments exit ⟨(p.serveAll before).serveAll between, builder⟩ =
        (copied, ws) ∧
      ws.builder.draft.instructions = builder.draft.instructions ++ new ∧
      ws.builder.draft.handlers.toList = builder.draft.handlers.toList ++ caught ∧
      (∀ more,
        Retold (b.handlers.map (·.mention ⟨(p.serveAll before).serveAll between, table⟩))
          (caught.map (·.mention (ws.pool.serveAll more))) (copied.fault = none) ∧
        Retold ((Listing.decode b.code).body.filterMap
            (·.mention ⟨(p.serveAll before).serveAll between, table⟩))
          (new.filterMap (·.mention (ws.pool.serveAll more))) (copied.fault = none)) ∧
      (∀ x m, Decoded.mention ⟨p.serveAll before, table⟩ x = some (.ok m) →
        x.mention ⟨(p.serveAll before).serveAll between, table⟩ = some (.ok m)) ∧
      ∀ row m, HandlerRow.mention ⟨p.serveAll before, table⟩ row = .ok m →
        row.mention ⟨(p.serveAll before).serveAll between, table⟩ = .ok m := by
  have grown := extends_serveAll (p.serveAll before) between
  have sound := (started.sound.serveAll before).serveAll between
  generalize (p.serveAll before).serveAll between = q at grown sound ⊢
  obtain ⟨rest, all, finished⟩ := b.mentions_disassemble ⟨q, table⟩
    (fun v => (·.type) <$> builder.draft.localInfo v) (arguments.getD builder.arguments) exit
  unfold Body.copyInto
  dsimp only
  generalize b.disassemble ⟨q, table⟩ (fun v => (·.type) <$> builder.draft.localInfo v)
    (arguments.getD builder.arguments) exit = script at all finished
  obtain ⟨done, ⟨left, part⟩, adds, complete⟩ := @Emit.yields_run ⟨q, builder⟩ .empty script.ops
  rw [own] at part
  rw [← part, List.map_append, List.append_assoc] at all
  have edits : Emit.Edits (fun _ => True) (Emit.run .empty script.ops) :=
    Emit.edits_run .empty script.ops fun _ _ _ _ => trivial
  have sound' := sound.interned (Emit.pools_of_worked (edits ⟨q, builder⟩))
  generalize Emit.run .empty script.ops ⟨q, builder⟩ = result at adds complete sound'
  obtain ⟨fault | _, ws⟩ := result
  · have failed : some fault = none → left.map .ok ++ rest = [] := fun none => by cases none
    obtain ⟨new, caught, instructions, handlers, told⟩ := adds.retold sound' all failed
    exact ⟨_, ws, new, caught, rfl, instructions, handlers, told, fun _ _ => grown.mention,
      fun _ _ => grown.mention_row⟩
  · have whole : script.fault = none → left.map .ok ++ rest = [] := by
      intro none
      have same := complete () rfl
      rw [own, ← part] at same
      rw [List.append_cancel_left (same.symm.trans (List.append_nil _).symm), finished none]
      rfl
    obtain ⟨new, caught, instructions, handlers, told⟩ := adds.retold sound' all whole
    exact ⟨_, ws, new, caught, rfl, instructions, handlers, told, fun _ _ => grown.mention,
      fun _ _ => grown.mention_row⟩

section Calling

open Writing

/-- The constants of a call, and of a class to catch. -/
def callConstants : List Constant :=
  [.utf8 "java/lang/Object", .classInfo 0, .utf8 "m", .utf8 "()V", .nameAndType 2 3,
    .methodRef 1 4 false]

/-- A call of a method of the class itself, with a handler. -/
def calling : Body :=
  ⟨"java/lang/Object", ⟨[], none⟩, true, [0xB8, 0, 2, 0xB1], [⟨0, 3, 3, 1⟩], []⟩

def callScript : List (Op (Handle Label) (Handle Local)) :=
  [.createLabel, .createLabel,
    .exceptionHandler (.made 0) (.made 1) (.made 1) (some (.object .object)),
    .placeLabel (.made 0), .invoke .static none "m" ⟨[], none⟩ false,
    .placeLabel (.made 1), .returnValue none]

theorem decode_calling : Listing.decode calling.code =
    ⟨[⟨0, 3, .member 0xB8 2⟩, ⟨3, 4, .simple 0xB1⟩], []⟩ := by
  decide +kernel

theorem disassemble_calling {k : Constants} (cls : k.cls 1 = .ok (.object .object))
    (member : k.member 2 = .ok ⟨"java/lang/Object", "m", "()V", false⟩)
    (typeOf : Local → Except Fault FieldType) :
    calling.disassemble k typeOf [] (none : Option Label) = ⟨callScript, none, [], []⟩ := by
  have descriptor : MethodDescriptor.ofText "()V" = .ok ⟨[], none⟩ := by decide +kernel
  have call : (memberOp k "java/lang/Object" 0xB8 2 :
      Except Fault (Op (Handle Label) (Handle Local))) =
        .ok (.invoke .static none "m" ⟨[], none⟩ false) := by
    rw [memberOp, member]
    exact bind_eq_ok.mpr ⟨_, rfl, bind_eq_ok.mpr ⟨_, descriptor, rfl⟩⟩
  have leave : (simpleOp none 0xB1 : Op (Handle Label) (Handle Local)) = .returnValue none := by
    cbv
  have start : ∀ s : Script Label Local,
      (pure PUnit.unit : Writing Label Local PUnit) s = (.ok PUnit.unit, s) := fun _ => rfl
  have code := decode_calling
  simp only [calling] at code
  simp [Body.disassemble, Body.argumentTypes, SlotMap.bind, calling, code, Writing.listing,
    Writing.instructions, addressOf,
    run_bind, start, Decoded.targets, handler, labelAt, place, emit, lift, cls, call, instruction,
    linesByAddress, leave, Std.HashMap.getElem_insert, Listing.strayTargets, callScript]

theorem fault_calling : (calling.copyInto #[none, some 1, some 5] none none
    ⟨(callConstants.foldl Pool.append .empty).append (.utf8 "n"),
      Builder.initial 0 .object ⟨[], none⟩ true⟩).1.fault = none := by
  have ran : (Emit.run .empty callScript
      ⟨(callConstants.foldl Pool.append .empty).append (.utf8 "n"),
        Builder.initial 0 .object ⟨[], none⟩ true⟩).1.isOk = true := by decide +kernel
  have given : (none : Option (List Local)).getD
      (Builder.initial 0 .object ⟨[], none⟩ true).arguments = [] := rfl
  unfold Body.copyInto
  dsimp only
  rw [given, disassemble_calling (by decide +kernel) rfl]
  dsimp only
  generalize Emit.run _ _ _ = result at ran
  obtain ⟨fault | _, ws⟩ := result
  · cases ran
  · rfl

/-- Another text has come into the pool before the copy. -/
theorem Body.mentions_copyInto_calling : ∃ copied ws,
    calling.copyInto #[none, some 1, some 5] none none
      ⟨(Pool.empty.serveAll (callConstants.map .intern)).serveAll [.intern (.utf8 "n")],
        Builder.initial 0 .object ⟨[], none⟩ true⟩ = (copied, ws) ∧
    copied.fault = none ∧
    ws.builder.draft.handlers.toList.map (·.mention ws.pool) =
      [.ok (.catches (some "java/lang/Object"))] ∧
    ws.builder.draft.instructions.filterMap (·.mention ws.pool) =
      [.ok (.member Opcode.invokestatic ⟨"java/lang/Object", "m", "()V", false⟩)] := by
  have first : Pool.empty.serveAll (callConstants.map .intern) =
      callConstants.foldl Pool.append .empty :=
    serveAll_intern (by decide) fun c _ => find?_empty c
  have second : (callConstants.foldl Pool.append .empty).serveAll [.intern (.utf8 "n")] =
      (callConstants.foldl Pool.append .empty).append (.utf8 "n") := by
    refine @serveAll_intern _ [.utf8 "n"] (List.nodup_singleton _) ?_
    refine List.forall_mem_singleton.mpr ?_
    simp [callConstants, find?_append, find?_empty]
  obtain ⟨copied, ws, new, caught, copy, instructions, handlers, told, kept, keptRow⟩ :=
    Body.mentions_copyInto .empty (callConstants.map .intern) [.intern (.utf8 "n")]
      #[none, some 1, some 5] calling (Builder.initial 0 .object ⟨[], none⟩ true) rfl none none
  have complete := fault_calling
  rw [← second, ← first, copy] at complete
  refine ⟨copied, ws, copy, complete, ?_, ?_⟩
  · rw [handlers]
    refine ((told []).1.2.2 complete).trans (congrArg ([·]) (keptRow ⟨0, 3, 3, 1⟩ _ ?_))
    rw [first]
    rfl
  · rw [instructions]
    refine ((told []).2.2.2 complete).trans ?_
    have named := kept (.member Opcode.invokestatic 2)
      (.member Opcode.invokestatic ⟨"java/lang/Object", "m", "()V", false⟩) (by rw [first]; rfl)
    have code := congrArg Listing.body decode_calling
    rw [code]
    exact List.filterMap_cons_some named

end Calling

end JvmAssembly
