import Mathlib
import JvmAssembly.Proofs.Draft.Faults
import JvmAssembly.Proofs.Draft.Stability
import JvmAssembly.Proofs.Pool.Recovery

/-!
What resolving a draft looks up in the pool: the entries that its instructions and handlers name,
and the words for its debug tables. Where the pool has all of these, resolving may still fail, but
never for want of a constant.
-/
namespace JvmAssembly

section Supplied

variable {α β : Type} {x : Except Fault α} {f : α → Except Fault β}

/-- Does not fail for want of a constant. -/
def Supplied (x : Except Fault α) : Prop := ∀ fault, x = .error fault → fault.isMissing = false

theorem supplied_ok (a : α) : Supplied (.ok a : Except Fault α) := failsWith_ok a

theorem supplied_error {fault : Fault} (other : fault.isMissing = false) :
    Supplied (.error fault : Except Fault α) := failsWith_error other

theorem Supplied.bind (first : Supplied x) (later : ∀ a, x = .ok a → Supplied (f a)) :
    Supplied (x >>= f) := FailsWith.bind first later

theorem supplied_mapM {g : β → Except Fault α} {xs : List β} (each : ∀ x ∈ xs, Supplied (g x)) :
    Supplied (xs.mapM g) := failsWith_mapM each

theorem FailsWith.supplied (structural : FailsWith (·.isStructural = true) x) : Supplied x :=
  fun fault failed => Fault.not_isMissing_of_isStructural (structural fault failed)

theorem supplied_checkTable (table : Table) (length : Nat) :
    Supplied (checkTable table length) := by
  unfold checkTable
  split
  · exact supplied_error rfl
  · exact supplied_ok ()

end Supplied

namespace Pool

variable {p q : Pool} {ref : ConstantRef} {s : String}

/-- The entry is the place of some constant. -/
def Lists (p : Pool) (ref : ConstantRef) : Prop := ∃ c, p.find? c = some ref

def Knows (p : Pool) (s : String) : Prop := ∃ ref, p.Spells s ref

theorem Lists.mono (listed : p.Lists ref) (within : p.Within q) : q.Lists ref := by
  obtain ⟨c, found⟩ := listed
  exact ⟨c, within found⟩

theorem Knows.mono (known : p.Knows s) (within : p.Within q) : q.Knows s := by
  obtain ⟨ref, found⟩ := known
  exact ⟨ref, within found⟩

/-- A pool to look things up in: constants are found at their entries, and these have indices. -/
structure Ready (p : Pool) : Prop where
  coherent : p.Coherent
  numbered : p.Numbered

theorem Ready.supplied_indexOf (ready : p.Ready) (listed : p.Lists ref) :
    Supplied (p.indexOf ref) := by
  obtain ⟨c, found⟩ := listed
  have inside := (Array.getElem?_eq_some_iff.mp (ready.coherent.entry found)).1
  obtain ⟨index, known⟩ := ready.numbered.exists_index inside
  rw [known]
  exact supplied_ok index

theorem Ready.supplied_indexOfText (ready : p.Ready) (known : p.Knows s) :
    Supplied (p.indexOfText s) := by
  obtain ⟨ref, found⟩ := known
  have held : p.find? (.utf8 s) = some ref := found
  rw [indexOfText, indexOfConstant, held]
  exact ready.supplied_indexOf ⟨_, held⟩

end Pool

theorem Pool.lists_of_none {p : Pool} {i : Instruction} (none : i.ref? = none) :
    ∀ ref ∈ i.ref?, p.Lists ref := by
  intro ref named
  rw [none] at named
  cases named

namespace Draft

variable {d d' : Draft} {pool pool' : Pool}

/-- Every instruction names an entry of the pool, if it names one. -/
def Listed (pool : Pool) (d : Draft) : Prop :=
  ∀ n, ∀ ref ∈ (d.instructionAt n).ref?, pool.Lists ref

/-- All that resolving the draft looks up is in the pool. -/
structure Stocked (pool : Pool) (d : Draft) : Prop where
  listed : d.Listed pool
  handlers : ∀ h ∈ d.handlers, ∀ ref ∈ h.catchType, pool.Lists ref
  lines : d.lines.size ≠ 0 → pool.Knows AttributeKind.lines.name
  table : d.tracksLocals = true → pool.Knows AttributeKind.locals.name
  names : d.tracksLocals = true → ∀ info ∈ d.locals, ∀ name ∈ info.name,
    pool.Knows name ∧ pool.Knows info.type.render

theorem Stocked.mono (stocked : d.Stocked pool) (within : pool.Within pool') :
    d.Stocked pool' where
  listed n ref named := (stocked.listed n ref named).mono within
  handlers h member ref named := (stocked.handlers h member ref named).mono within
  lines some := (stocked.lines some).mono within
  table tracked := (stocked.table tracked).mono within
  names tracked info member name named :=
    (stocked.names tracked info member name named).imp (·.mono within) (·.mono within)

section Listed

theorem Listed.of_eq (listed : d.Listed pool) (same : ∀ n, d'.instructionAt n = d.instructionAt n) :
    d'.Listed pool := by
  intro n ref named
  rw [same n] at named
  exact listed n ref named

theorem Listed.allocate (listed : d.Listed pool) {i : Instruction}
    (new : ∀ ref ∈ i.ref?, pool.Lists ref) : (d.allocate i).Listed pool := by
  intro n ref named
  by_cases last : n = d.nodes.size
  · rw [last, instructionAt_allocate_size] at named
    exact new ref named
  · rw [instructionAt_allocate d i last] at named
    exact listed n ref named

end Listed

theorem Listed.widened (listed : d.Listed pool) (valid : d.Valid)
    (w : Layout.Pass.Widened d d') : d'.Listed pool := by
  intro n ref named
  rcases Layout.Pass.instructionAt_widened w valid n with ⟨same, -⟩ | ⟨op, target, jump⟩ | label
  · rw [same] at named
    exact listed n ref named
  · rw [jump] at named
    cases named
  · rw [label] at named
    cases named

/-- Writing an instruction asks for no constant that is missing. -/
theorem Listed.not_isMissing (listed : d.Listed pool) (ready : pool.Ready) {fault : Fault}
    (unwritable : d.Unwritable pool fault) : fault.isMissing = false := by
  obtain ⟨n, -, offsets, offset, failed⟩ := unwritable
  rcases encode_eq_error failed with ⟨ref, named, unknown⟩ | ⟨v, width, -, unassigned⟩
  · exact ready.supplied_indexOf (listed n ref named) fault unknown
  · rw [slotOf_eq_error unassigned]
    rfl

theorem Listed.supplied_layout (listed : d.Listed pool) (ready : pool.Ready) (valid : d.Valid) :
    Supplied (d.layout pool).1 := by
  cases laid : d.layout pool with
  | mk result d' =>
      cases result with
      | ok l => exact supplied_ok l
      | error fault =>
          apply supplied_error
          rcases Layout.layout_eq_error valid laid with structural | ⟨x, widened, unwritable⟩
          · exact Fault.not_isMissing_of_isStructural structural
          · exact (listed.widened valid widened).not_isMissing ready unwritable

variable {f : Flow} {frame : UInt16} {ready laid : Draft}

theorem ref?_marked (i : Instruction) (liveness : Liveness) (position : Nat) :
    (i.marked liveness position).ref? = i.ref? := by
  cases i <;> rfl

/-- Slots and dead stores are no matter of the pool. -/
theorem Stocked.prepared (stocked : d.Stocked pool) {slotted : Draft} (valid : d.Valid)
    {liveness : Liveness} {result : Except Fault UInt16}
    (allocated : allocateSlots liveness d = (result, slotted)) :
    (slotted.markDeadStores liveness).Stocked pool := by
  obtain ⟨same, moved⟩ := allocateSlots_reslotted allocated
  have nodup := (valid.allocateSlots allocated).nodup
  have tables := markDeadStores_eq liveness slotted
  refine ⟨?_, ?_, ?_, ?_, ?_⟩
  · intro n ref named
    have before : slotted.instructionAt n = d.instructionAt n := by rw [same]; rfl
    refine stocked.listed n ref ?_
    rw [← before]
    rcases instructionAt_markDeadStores_or liveness nodup n with kept | ⟨i, marked⟩
    · rwa [kept] at named
    · rwa [marked, ref?_marked] at named
  · intro h member
    rw [tables, same] at member
    exact stocked.handlers h member
  · rw [tables, same]
    exact stocked.lines
  · rw [tables, same]
    exact stocked.table
  · rw [tables, same]
    intro tracked info member name named
    obtain ⟨v, stored⟩ := Array.mem_iff_getElem?.mp member
    obtain ⟨old, found, rest, -⟩ := moved.origin stored
    rw [rest] at named ⊢
    exact stocked.names tracked old (Array.mem_of_getElem? found) name named

theorem Stocked.supplied_handlerRow (stocked : d.Stocked pool) (indexed : pool.Ready) (l : Layout)
    {h : Handler} (member : h ∈ d.handlers) : Supplied (handlerRow pool l h) := by
  unfold handlerRow
  dsimp only
  split
  · exact supplied_ok _
  · have listed := stocked.handlers h member
    cases caught : h.catchType with
    | none => exact supplied_ok _
    | some ref =>
        exact (indexed.supplied_indexOf (listed ref caught)).bind fun _ _ => supplied_ok _

theorem Stocked.supplied_variableRow (stocked : d.Stocked pool) (indexed : pool.Ready) (l : Layout)
    (tracked : d.tracksLocals = true) (range : LiveRange) :
    Supplied (variableRow pool l d range) := by
  unfold variableRow
  dsimp only
  split
  · exact supplied_ok _
  · split
    · rename_i name type fixed slot found
      have known := stocked.names tracked _ (Array.mem_of_getElem? found) name rfl
      exact (indexed.supplied_indexOfText known.1).bind fun _ _ =>
        (indexed.supplied_indexOfText known.2).bind fun _ _ => supplied_ok _
    · exact supplied_ok _

theorem Stocked.supplied_assemble (stocked : d.Stocked pool) (indexed : pool.Ready) (l : Layout)
    (depth frame : UInt16) {ranges : List LiveRange}
    (tracked : ranges ≠ [] → d.tracksLocals = true) :
    Supplied (d.assemble pool l depth frame ranges) := by
  have handlers : Supplied (d.handlers.toList.mapM (handlerRow pool l)) :=
    supplied_mapM fun h member => stocked.supplied_handlerRow indexed l (Array.mem_toList_iff.mp member)
  have locals : Supplied (ranges.mapM (variableRow pool l d)) :=
    supplied_mapM fun range member =>
      stocked.supplied_variableRow indexed l (tracked (List.ne_nil_of_mem member)) range
  exact handlers.bind fun _ _ => locals.bind fun _ _ => supplied_ok _

/-- The words for a debug table are known if the table has rows. -/
def KnowsTables (pool : Pool) (c : Code) : Prop :=
  (c.lines ≠ [] → pool.Knows AttributeKind.lines.name) ∧
    (c.locals ≠ [] → pool.Knows AttributeKind.locals.name)

theorem Stocked.knows_of_assemble (stocked : d.Stocked pool) {l : Layout} {depth frame : UInt16}
    {ranges : List LiveRange} {c : Code} (tracked : ranges ≠ [] → d.tracksLocals = true)
    (assembled : d.assemble pool l depth frame ranges = .ok c) : KnowsTables pool c := by
  obtain ⟨handlers, -, rest⟩ := bind_eq_ok.mp assembled
  obtain ⟨rows, each, last⟩ := bind_eq_ok.mp rest
  cases last
  refine ⟨fun some => stocked.lines fun none => some ?_, fun some => stocked.table (tracked ?_)⟩
  · rw [Array.size_eq_zero_iff.mp none]
    rfl
  · rintro rfl
    cases each
    exact some rfl

section Resolution

variable {slotted : Draft} {l : Layout} (stocked : d.Stocked pool) (indexed : pool.Ready)
  (valid : d.Valid)

include stocked valid

/-- Layout leaves the tables of a draft alone. -/
theorem Stocked.after_layout (flow : d.flow = .ok f)
    (allocated : allocateSlots (.ofFlow f d.locals.size) d = (.ok frame, slotted))
    (layout : (slotted.markDeadStores (.ofFlow f d.locals.size)).layout pool = (.ok l, laid)) :
    laid.Stocked pool ∧
      laid.tracksLocals = (slotted.markDeadStores (.ofFlow f d.locals.size)).tracksLocals := by
  have before := Draft.prepared valid flow allocated
  have stocked' := stocked.prepared valid allocated
  obtain ⟨up, down, stretches⟩ := stretches_of_widened before.valid before.flow_ready
    (Layout.layout_widens before.valid layout)
  have listed := stocked'.listed.widened before.valid (Layout.layout_widens before.valid layout)
  refine ⟨⟨listed, ?_, ?_, ?_, ?_⟩, stretches.tracksLocals⟩
  · rw [stretches.handlers]
    exact stocked'.handlers
  · rw [stretches.lines]
    exact stocked'.lines
  · rw [stretches.tracksLocals]
    exact stocked'.table
  · rw [stretches.tracksLocals, stretches.locals]
    exact stocked'.names

include indexed

/-- Resolving may fail, but all constants are there, also those for the debug tables. -/
theorem Stocked.supplied_resolve :
    Supplied (d.resolve pool).1 ∧ ∀ c, (d.resolve pool).1 = .ok c → KnowsTables pool c := by
  have ends := resolution pool d
  generalize d.resolve pool = out at ends ⊢
  cases ends with
  | unplaced failed =>
      obtain ⟨label, -, unplaced⟩ := failsWith_flow d _ failed
      cases positionOf_eq_error unplaced
      exact ⟨supplied_error rfl, nofun⟩
  | @crowded f fault slotted flow failed =>
      have slots := (failsWith_allocateSlots (.ofFlow f d.locals.size) d).supplied
      rw [failed] at slots
      exact ⟨supplied_error (slots fault rfl), nofun⟩
  | @unbalanced f _ _ _ flow allocated failed =>
      exact ⟨supplied_error (f.failsWith_maxStack.supplied _ failed), nofun⟩
  | unwritten flow allocated measured failed =>
      have written := (stocked.prepared valid allocated).listed.supplied_layout indexed
        (Draft.prepared valid flow allocated).valid
      rw [failed] at written
      exact ⟨supplied_error (written _ rfl), nofun⟩
  | assembled flow allocated measured layout assembled =>
      obtain ⟨stocked', tracks⟩ := stocked.after_layout valid flow allocated layout
      rw [← tracks] at assembled
      rw [← assembled]
      have tracked : ∀ {t : Bool} {ranges : List LiveRange},
          (if t = true then ranges else []) ≠ [] → t = true := by
        intro t ranges some
        by_contra off
        exact some (if_neg off)
      exact ⟨stocked'.supplied_assemble indexed _ _ _ tracked,
        fun c => stocked'.knows_of_assemble tracked⟩

end Resolution

end Draft

/-! Attributes. -/

section Attributes

variable {pool : Pool} (indexed : pool.Ready)

theorem supplied_writeCounted {α : Type} (write : α → Bytes) (items : List α) :
    Supplied (writeCounted (fun x => .ok (write x)) items) := by
  have each : Supplied (items.mapM fun x => (.ok (write x) : Except Fault Bytes)) :=
    supplied_mapM fun _ _ => supplied_ok _
  unfold writeCounted
  dsimp only
  split
  · split
    · exact supplied_ok _
    · rename_i fault failed
      exact supplied_error (each fault failed)
  · exact supplied_error rfl

theorem AttributeBody.supplied_write (body : AttributeBody) : Supplied body.write := by
  cases body with
  | code body =>
      exact (supplied_writeCounted _ _).bind fun _ _ => (supplied_writeCounted _ _).bind fun _ _ =>
        supplied_ok _
  | lines rows => exact supplied_writeCounted _ rows
  | locals rows => exact supplied_writeCounted _ rows
  | sourceFile index => exact supplied_ok _

include indexed

theorem AttributeBody.supplied_toAttribute {body : AttributeBody}
    (known : pool.Knows body.kind.name) : Supplied (body.toAttribute pool) :=
  (indexed.supplied_indexOfText known).bind fun _ _ => body.supplied_write.bind fun _ _ =>
    supplied_ok _

theorem Code.supplied_toAttribute {c : Code} (known : Draft.KnowsTables pool c) :
    Supplied (c.toAttribute pool) := by
  have lines : (!c.lines.isEmpty) = true →
      Supplied ((AttributeBody.lines c.lines).toAttribute pool) :=
    fun some => AttributeBody.supplied_toAttribute indexed (known.1 (by simpa using some))
  have locals : (!c.locals.isEmpty) = true →
      Supplied ((AttributeBody.locals c.locals).toAttribute pool) :=
    fun some => AttributeBody.supplied_toAttribute indexed (known.2 (by simpa using some))
  have ended : ∀ attributes : List Attribute, Supplied (if (!c.locals.isEmpty) = true then do
        checkTable .locals c.locals.length
        let table ← (AttributeBody.locals c.locals).toAttribute pool
        return (⟨c.maxStack, c.maxLocals, c.code, c.handlers, attributes ++ [table]⟩ : CodeAttribute)
      else return ⟨c.maxStack, c.maxLocals, c.code, c.handlers, attributes⟩) := by
    intro attributes
    split
    · exact (supplied_checkTable _ _).bind fun _ _ => (locals ‹_›).bind fun _ _ => supplied_ok _
    · exact supplied_ok _
  refine (supplied_checkTable _ _).bind fun _ _ => ?_
  dsimp only
  split
  · exact (supplied_checkTable _ _).bind fun _ _ => (lines ‹_›).bind fun _ _ => ended _
  · exact ended _

end Attributes

end JvmAssembly
