import Mathlib
import JvmAssembly.Proofs.Builder.ConstantLoads
import JvmAssembly.Proofs.Builder.Inlining
import JvmAssembly.Proofs.Builder.Origins
import JvmAssembly.Proofs.Builder.Reconstruction
import JvmAssembly.Proofs.Disassembly.Locals
import JvmAssembly.Proofs.Draft.NearJumps
import JvmAssembly.Proofs.Pool.History

/-!
A method is built, taken apart and built again. If its only locals are the receiver and the
parameters, a fresh builder comes to the same code, and no constant is needed that the pool does not
hold already.
-/
namespace JvmAssembly

namespace SlotMap

variable {loc : Type} {typeOf : loc → Except Fault FieldType}

/-- The argument has the kind of value that is expected. -/
def Suits (typeOf : loc → Except Fault FieldType) (type : FieldType) (a : loc) : Prop :=
  ∃ found, typeOf a = .ok found ∧ LocalKind.ofType found = LocalKind.ofType type

theorem bind_of_suits {slot : UInt16} {slots : SlotMap loc} {type : FieldType}
    {types : List FieldType} {a : loc} {arguments : List loc} (suits : Suits typeOf type a) :
    bind typeOf slot slots (type :: types) (a :: arguments) =
      match slotAfter slot type with
      | .ok next => bind typeOf next (slots.insert slot (.given a, .ofType type)) types arguments
      | .error fault => .error fault := by
  obtain ⟨found, typed, same⟩ := suits
  rw [bind, typed]
  exact if_pos same

/-- Arguments of the expected kinds can be bound if there are slots for them. -/
theorem exists_bind {types : List FieldType} {arguments : List loc}
    (suits : List.Forall₂ (Suits typeOf) types arguments) (slot : UInt16)
    (fits : slot.toNat + (types.map (·.width)).sum ≤ 65535) (slots : SlotMap loc) :
    ∃ out, bind typeOf slot slots types arguments = .ok out := by
  induction suits generalizing slot slots with
  | nil => exact ⟨slots, rfl⟩
  | @cons type a types arguments first _ ih =>
      rw [List.map_cons, List.sum_cons, ← Nat.add_assoc] at fits
      have small := Nat.le_of_add_right_le fits
      rw [← toNat_add_width small] at fits
      obtain ⟨out, bound⟩ := ih (slot + UInt16.ofNat type.width) fits
        (slots.insert slot (.given a, .ofType type))
      refine ⟨out, ?_⟩
      rw [bind_of_suits first, slotAfter_eq_ok.mpr ⟨small, rfl⟩]
      exact bound

end SlotMap

namespace Builder

variable {id : Nat} {owner : BinaryName} {descriptor : MethodDescriptor} {isStatic : Bool}

theorem sum_widths_argumentTypes : ((argumentTypes owner descriptor isStatic).map (·.width)).sum =
    descriptor.parameterSlots (!isStatic) := by
  rw [← MethodDescriptor.sum_argumentWidths]
  cases isStatic <;> rfl

/-- The arguments of a new builder are those that a body with its descriptor expects. -/
theorem exists_bind_initial (narrow : descriptor.parameterSlots (!isStatic) ≤ 65535) : ∃ slots,
    SlotMap.bind
      (fun v => (·.type) <$> (initial id owner descriptor isStatic).draft.localInfo v) 0 ∅
      (argumentTypes owner descriptor isStatic) (initial id owner descriptor isStatic).arguments =
        .ok slots := by
  refine SlotMap.exists_bind ?_ 0 ?_ ∅
  · rw [arguments_initial, List.forall₂_map_right_iff, List.forall₂_iff_get]
    refine ⟨List.length_range.symm, fun n inside _ => ?_⟩
    obtain ⟨info, found, same⟩ := exists_argumentLocals (List.getElem?_eq_getElem inside)
    refine ⟨_, ?_, rfl⟩
    simp [initial, Draft.localInfo, Draft.empty, found, same]
  · rwa [UInt16.toNat_zero, Nat.zero_add, sum_widths_argumentTypes]

theorem pins_argumentLocals {n : Nat} {info : LocalInfo}
    (found : (argumentLocals owner descriptor isStatic)[n]? = some info) :
    info.Pins (parameterSlot (argumentTypes owner descriptor isStatic) n).toNat := by
  have wide := FieldType.width_pos info.type
  rw [← LocalKind.width_ofType] at wide
  exact ⟨_, (getElem?_argumentLocals found).2.1, Nat.le_refl _, Nat.lt_add_of_pos_right wide⟩

/-- No two arguments start in one slot. -/
theorem parameterSlot_ne (narrow : descriptor.parameterSlots (!isStatic) ≤ 65535) {n m : Nat}
    (late : m < (argumentTypes owner descriptor isStatic).length) (before : n < m) :
    parameterSlot (argumentTypes owner descriptor isStatic) n ≠
      parameterSlot (argumentTypes owner descriptor isStatic) m := by
  intro same
  rw [← length_argumentLocals] at late
  have here := pins_argumentLocals (List.getElem?_eq_getElem (before.trans late))
  have there := pins_argumentLocals (List.getElem?_eq_getElem late)
  rw [← same] at there
  exact List.pairwise_iff_getElem.mp (pins_argumentLocals_apart narrow) n m _ late before _ here
    there

/-- Each slot of a parameter stands for its argument. -/
theorem slotsBound_initial (narrow : descriptor.parameterSlots (!isStatic) ≤ 65535) {pool : Pool}
    {slots : SlotMap Local}
    (bound : SlotMap.bind
      (fun v => (·.type) <$> (initial id owner descriptor isStatic).draft.localInfo v) 0 ∅
      (argumentTypes owner descriptor isStatic) (initial id owner descriptor isStatic).arguments =
        .ok slots) :
    Emit.SlotsBound ⟨pool, initial id owner descriptor isStatic⟩ slots := by
  intro v info slot stored given
  obtain ⟨expected, fixed, same⟩ :=
    getElem?_argumentLocals ((getElem?_locals_initial v).symm.trans stored)
  rw [same, fixed, Option.some.injEq] at given
  have inside := (List.getElem?_eq_some_iff.mp expected).1
  have argument : (initial id owner descriptor isStatic).arguments[v]? = some ⟨id, v⟩ := by
    rw [arguments_initial, List.getElem?_map, List.getElem?_range inside]
    rfl
  have entry := SlotMap.bind_holds bound expected argument (UInt16.zero_add _)
    fun m within above => by
      rw [UInt16.zero_add]
      exact (parameterSlot_ne narrow within above).symm
  rw [SlotMap.find?, ← given, entry]
  exact if_pos rfl

theorem fixed_initial : ∀ info ∈ (initial id owner descriptor isStatic).draft.locals,
    info.fixedSlot ≠ none := by
  intro info member
  obtain ⟨n, found⟩ := List.mem_iff_getElem?.mp (Array.mem_toList_iff.mpr member)
  rw [(getElem?_argumentLocals found).2.1]
  exact Option.some_ne_none _

end Builder

namespace Instruction.Known

variable {pool : Pool} {locals : Array LocalInfo} {x : Instruction}

theorem isSubroutineCall (known : x.Known pool locals) : x.isSubroutineCall = false := by
  have shape := known.shape
  cases x with
  | branch op target =>
      rw [Instruction.isSubroutineCall, Opcode.isSubroutineCall, Bool.or_eq_false_iff,
        beq_eq_false_iff_ne, beq_eq_false_iff_ne]
      refine ⟨shape.2, ?_⟩
      rintro rfl
      exact absurd shape.1 (by decide)
  | _ => rfl

theorem ne_ret (known : x.Known pool locals) (v : Local) : x ≠ .ret v := by
  rintro rfl
  exact known.shape

end Instruction.Known

namespace Emit

open Relation Builder

variable {base : Draft} {ws ws' : Workspace} {pool : Pool} {id : Nat} {owner : BinaryName}
  {descriptor : MethodDescriptor} {isStatic : Bool}

/-- What happens to a workspace while a method is built: an operation without locals of its own,
handlers and subroutines, whatever comes of it, or something that is done to the pool meanwhile. -/
inductive Progress : Workspace → Workspace → Prop
  | perform (ws : Workspace) {op : Op Label Local} (plain : op.isPlain = true) :
      Progress ws (perform op ws).2
  | loadReceiver (ws : Workspace) : Progress ws (loadReceiver ws).2
  | serve (ws : Workspace) (request : Pool.Request) :
      Progress ws { ws with pool := ws.pool.serve request }

/-- A workspace whose builder and pool have come about properly. -/
structure Proper (base : Draft) (ws : Workspace) : Prop where
  regular : Regular base ws
  built : ws.builder.Built
  sound : ws.pool.Sound

theorem proper_initial (sound : pool.Sound)
    (narrow : descriptor.parameterSlots (!isStatic) ≤ 65535) :
    Proper (initial id owner descriptor isStatic).draft
      ⟨pool, initial id owner descriptor isStatic⟩ where
  regular := ⟨sound.coherent, rfl, rfl, rfl, fun _ => .label⟩
  built := .create (create_eq_ok.mpr ⟨narrow, rfl⟩)
  sound := sound

theorem Proper.perform (proper : Proper base ws) {op : Op Label Local}
    (plain : op.isPlain = true) : Proper base (perform op ws).2 where
  regular := (steady_perform plain ws proper.regular trivial).1
  built := proper.built.perform ws.pool op
  sound := proper.sound.interned
    (pools_of_worked (edits_perform op (fun _ _ => trivial) ws : ReflTransGen (Worked fun _ => True)
      _ _))

theorem Proper.step (proper : Proper base ws) (step : Progress ws ws') : Proper base ws' := by
  cases step with
  | perform plain => exact proper.perform plain
  | loadReceiver =>
      unfold Emit.loadReceiver
      split
      · exact proper.perform rfl
      · exact proper
  | serve request =>
      have sound := proper.sound.serve request
      have regular := proper.regular
      refine ⟨⟨sound.coherent, regular.locals, regular.reserved, regular.handlers, fun n => ?_⟩,
        proper.built, sound⟩
      exact (regular.known n).mono (ws.pool.within_serve request)

theorem Proper.run (proper : Proper base ws) (steps : ReflTransGen Progress ws ws') :
    Proper base ws' := by
  induction steps with
  | refl => exact proper
  | tail _ last ih => exact ih.step last

theorem Regular.known_markDeadStores (regular : Regular base ws)
    (valid : ws.builder.draft.Valid) (liveness : Liveness) (n : NodeId) :
    ((ws.builder.draft.markDeadStores liveness).instructionAt n).Known ws.pool base.locals := by
  rcases Draft.instructionAt_markDeadStores_or liveness valid.nodup n with same | ⟨i, same⟩
  · rw [same]
    exact regular.known n
  · rw [same]
    exact (regular.known n).marked liveness i

/-- Short code of a method with fixed slots is the layout of its instructions as they are. -/
theorem Proper.resolve (proper : Proper base ws) {c : Code} {d : Draft}
    (fixed : ∀ info ∈ base.locals, info.fixedSlot ≠ none)
    (resolved : ws.builder.draft.resolve ws.pool = (.ok c, d)) (short : c.code.length ≤ 32767) :
    ∃ f l, Draft.Prepared ws.builder.draft f c.maxLocals d ∧ f.maxStack = .ok c.maxStack ∧
      Layout.Settled ws.pool d l ∧ l.code = c.code ∧ c.handlers = [] ∧
      d.locals = base.locals ∧ d.Writable ∧
      ∀ n, (d.instructionAt n).Known ws.pool d.locals := by
  obtain ⟨f, frame, depth, slotted, l, flow, allocated, measured, layout, assembled⟩ :=
    Draft.resolve_eq_ok.mp resolved
  have regular := proper.regular
  have valid := proper.built.emitted.reachable.valid
  have prepared := Draft.prepared valid flow allocated
  have near : d = slotted.markDeadStores (.ofFlow f ws.builder.draft.locals.size) :=
    Layout.layout_near prepared.valid (Draft.target_mem_marked valid flow allocated) layout
      (Draft.code_assemble assembled ▸ short)
  have slots : slotted = ws.builder.draft := by
    have still := Draft.allocateSlots_of_fixed (regular.locals ▸ fixed)
      (.ofFlow f ws.builder.draft.locals.size)
    rw [still, Prod.mk.injEq] at allocated
    exact allocated.2.symm
  have locals : d.locals = base.locals := by
    rw [near, Draft.markDeadStores_eq, slots, regular.locals]
  have writable : d.Writable := by
    have kept := proper.built.emitted.writable.resolve valid ws.pool
    rwa [resolved] at kept
  have known : ∀ n, (d.instructionAt n).Known ws.pool d.locals := by
    intro n
    rw [locals, near, slots]
    exact regular.known_markDeadStores valid _ n
  have bare : d.handlers = #[] := by
    rw [near, prepared.handlers, regular.handlers]
  obtain ⟨handlers, rows, guarded, -, rfl⟩ := Draft.assemble_eq_ok.mp assembled
  rw [bare] at guarded
  cases guarded
  refine ⟨f, l, ?_, measured, Layout.layout_settled prepared.valid layout, rfl, rfl, locals,
    writable, known⟩
  rw [near]
  exact prepared

end Emit

namespace Builder

open Relation Emit

variable {id id' : Nat} {owner : BinaryName} {descriptor : MethodDescriptor} {isStatic : Bool}
  {pool : Pool} {ws : Workspace} {c : Code} {d : Draft} {table : Pool.IndexTable}

/-- The code of a layout can be copied into a new builder whose arguments are all the locals there
are. -/
theorem exists_copy_initial {l : Layout} {handlers : List HandlerRow} {code : Bytes}
    (narrow : descriptor.parameterSlots (!isStatic) ≤ 65535) (coherent : pool.Coherent)
    (numbered : pool.Numbered) (indices : pool.indexTable = .ok table) (bare : handlers = [])
    (same : code = l.code) (settled : Layout.Settled pool d l)
    (locals : d.locals = (initial id owner descriptor isStatic).draft.locals)
    (writable : d.Writable) (known : ∀ n, (d.instructionAt n).Known pool d.locals) :
    ∃ s nodes order,
      Body.copyInto ⟨owner.text, descriptor, isStatic, code, handlers, []⟩ table none none
        ⟨pool, initial id owner descriptor isStatic⟩ = (⟨none, [], []⟩,
          Workspace.withNodes ⟨pool, initial id owner descriptor isStatic⟩ nodes order) ∧
      Reconstructed pool d l ⟨pool, initial id owner descriptor isStatic⟩ s
        (Workspace.withNodes ⟨pool, initial id owner descriptor isStatic⟩ nodes
          order).builder.draft := by
  have typed : Body.argumentTypes ⟨owner.text, descriptor, isStatic, code, handlers, []⟩ =
      .ok (argumentTypes owner descriptor isStatic) := by
    cases isStatic with
    | true => rfl
    | false =>
        change _ <$> BinaryName.ofText owner.text = _
        rw [BinaryName.ofText_text]
        rfl
  have counted : (argumentTypes owner descriptor isStatic).length =
      (initial id owner descriptor isStatic).arguments.length := by
    rw [arguments_initial, List.length_map, List.length_range]
  have created : create id owner descriptor isStatic = .ok (initial id owner descriptor isStatic) :=
    create_eq_ok.mpr ⟨narrow, rfl⟩
  obtain ⟨slots, given⟩ := @exists_bind_initial id owner descriptor isStatic narrow
  exact exists_copy rfl (emitted_create created).reachable rfl bare rfl same typed counted given
    (slotsBound_initial narrow given) coherent numbered indices locals.symm known writable settled

/-- A method is built with no locals but its arguments, and has short code. Copied into a new
builder over the same pool, this needs no other constant and resolves to the same code. -/
theorem resolve_recreated {start : Builder} (started : pool.Started)
    (created : create id owner descriptor isStatic = .ok start)
    (made : ReflTransGen Progress ⟨pool, start⟩ ws)
    (resolved : ws.builder.draft.resolve ws.pool = (.ok c, d)) (short : c.code.length ≤ 32767)
    (indices : ws.pool.indexTable = .ok table) (id' : Nat) :
    ∃ fresh again, create id' owner descriptor isStatic = .ok fresh ∧
      Body.copyInto ⟨owner.text, descriptor, isStatic, c.code, c.handlers, []⟩ table none none
        ⟨ws.pool, fresh⟩ = (⟨none, [], []⟩, ⟨ws.pool, again⟩) ∧
      ∃ c' d', again.draft.resolve ws.pool = (.ok c', d') ∧ c'.code = c.code ∧
        c'.maxStack = c.maxStack ∧ c'.maxLocals = c.maxLocals := by
  obtain ⟨narrow, rfl⟩ := create_eq_ok.mp created
  have proper := (proper_initial started.sound narrow).run made
  obtain ⟨f, l, prepared, measured, settled, code, bare, locals, writable, known⟩ :=
    proper.resolve fixed_initial resolved short
  have same : d.locals = (initial id' owner descriptor isStatic).draft.locals := locals
  obtain ⟨s, nodes, order, copied, r⟩ := exists_copy_initial narrow proper.sound.coherent
    (proper.sound.numbered_of_indexTable indices) indices bare code.symm settled same writable known
  have plain := r.counterpart (prepared.handlers.trans proper.regular.handlers) rfl
    (fun n => (known n).isSubroutineCall) (fun n v ret => (known n).ne_ret v ret)
  refine ⟨_, _, create_eq_ok.mpr ⟨narrow, rfl⟩, copied, _, _,
    plain.resolve proper.built.emitted.reachable.valid prepared measured
      (proper.regular.locals ▸ fixed_initial) ?_ ?_ rfl rfl, code, rfl, rfl⟩
  · exact same.symm.trans (locals.trans proper.regular.locals.symm)
  · exact proper.regular.reserved.symm

theorem progress_foldl (ops : List (Op Label Local)) (plain : ∀ op ∈ ops, op.isPlain = true)
    (ws : Workspace) :
    ReflTransGen Progress ws (ops.foldl (fun ws op => (Emit.perform op ws).2) ws) := by
  induction ops generalizing ws with
  | nil => exact .refl
  | cons op ops ih =>
      rw [List.forall_mem_cons] at plain
      exact .head (.perform ws plain.1) (ih plain.2 _)

/-- An instance method that counts its argument down. -/
def countdown : Workspace :=
  let ops : List (Op Label Local) := [
    .createLabel, .placeLabel ⟨0, 0⟩, .increment ⟨0, 1⟩ (-1), .loadLocal ⟨0, 1⟩, .ifZero ⟨0, 0⟩ .ne]
  ops.foldl (fun ws op => (Emit.perform op ws).2) ⟨.empty, initial 0 .object ⟨[.int], none⟩ false⟩

/-- In the end the method puts a number that is too large for an instruction where it is never
read. -/
def farewell (ws : Workspace) : Workspace :=
  let ops : List (Op Label Local) := [.storeLocal ⟨0, 1⟩, .returnValue none]
  let ws := ops.foldl (fun ws op => (Emit.perform op ws).2) ws
  { ws with pool := ws.pool.serve (.assign .preserve) }

def counted : Workspace := farewell (Emit.perform (.loadConstant (.int 100000)) countdown).2

theorem made_counted :
    ReflTransGen Progress ⟨.empty, initial 0 .object ⟨[.int], none⟩ false⟩ counted := by
  have start := progress_foldl [.createLabel, .placeLabel ⟨0, 0⟩, .increment ⟨0, 1⟩ (-1),
    .loadLocal ⟨0, 1⟩, .ifZero ⟨0, 0⟩ .ne] (by decide)
    ⟨.empty, initial 0 .object ⟨[.int], none⟩ false⟩
  have loaded := start.trans (progress_foldl [.loadConstant (.int 100000)] (by decide) _)
  have finished := loaded.trans
    (progress_foldl [.storeLocal ⟨0, 1⟩, .returnValue none] (by decide) _)
  exact finished.tail (.serve _ (.assign .preserve))

/-- The number is the first entry of the pool. -/
theorem counted_eq : counted = farewell ⟨Pool.empty.append (.integer 100000),
    { countdown.builder with draft := { countdown.builder.draft with
      nodes := countdown.builder.draft.nodes.push ⟨.constant Opcode.ldc 0 1, true⟩
      order := countdown.builder.draft.order.push countdown.builder.draft.nodes.size } }⟩ := by
  have load : loadInstruction (.int 100000) Pool.empty =
      (.constant Opcode.ldc 0 1, Pool.empty.append (.integer 100000)) := by
    change (Instruction.constant Opcode.ldc (Pool.empty.intern (.integer 100000)).1 1,
      (Pool.empty.intern (.integer 100000)).2) = _
    rw [Pool.intern_empty]
  have start : countdown = ⟨.empty, countdown.builder⟩ := rfl
  rw [counted, start, perform_loadConstant, load]

theorem resolve_counted : ∃ c d, counted.builder.draft.resolve counted.pool = (.ok c, d) ∧
    c.code = [132, 1, 255, 27, 154, 255, 252, 18, 1, 87, 177] := by
  have computed : (counted.builder.draft.resolveWithin 30 counted.pool).map
      (fun r => (r.1.toOption, ())) =
      some (some ⟨1, 2, [132, 1, 255, 27, 154, 255, 252, 18, 1, 87, 177], [], [], []⟩, ()) := by
    rw [counted_eq]
    decide +kernel
  obtain ⟨d, resolved, -⟩ := Draft.exists_resolve_of_within (fun _ => ()) computed
  exact ⟨_, d, resolved, rfl⟩

theorem resolve_recreated_counted : Pool.empty.Started ∧
    ∃ start, create 0 .object ⟨[.int], none⟩ false = .ok start ∧
    ReflTransGen Progress ⟨.empty, start⟩ counted ∧
    counted.pool.indexTable = .ok #[none, some 0] ∧
    ∃ c d, counted.builder.draft.resolve counted.pool = (.ok c, d) ∧
      c.code = [132, 1, 255, 27, 154, 255, 252, 18, 1, 87, 177] ∧
      ∃ fresh again, create 1 .object ⟨[.int], none⟩ false = .ok fresh ∧
        Body.copyInto
          ⟨BinaryName.object.text, ⟨[.int], none⟩, false, c.code, c.handlers, []⟩ #[none, some 0]
          none none ⟨counted.pool, fresh⟩ = (⟨none, [], []⟩, ⟨counted.pool, again⟩) ∧
        ∃ c' d', again.draft.resolve counted.pool = (.ok c', d') ∧ c'.code = c.code ∧
          c'.maxStack = c.maxStack ∧ c'.maxLocals = c.maxLocals := by
  have created : create 0 .object ⟨[.int], none⟩ false = .ok _ :=
    create_eq_ok.mpr ⟨by decide, rfl⟩
  have indices : counted.pool.indexTable = .ok #[none, some 0] := by
    rw [counted_eq]
    rfl
  obtain ⟨c, d, resolved, code⟩ := resolve_counted
  exact ⟨.empty, _, created, made_counted, indices, c, d, resolved, code,
    resolve_recreated .empty created made_counted resolved (by rw [code]; decide) indices 1⟩

end Builder

end JvmAssembly
