import Mathlib
import JvmAssembly.Proofs.Draft.Balance
import JvmAssembly.Proofs.Draft.Interference
import JvmAssembly.Proofs.Draft.Relayout

/-!
A draft before and after its jumps were widened. Positions are put in and none is taken out, so
there is a map for each direction, and by these what is live, what is live together and what
becomes of the stack are the same in both drafts.
-/
namespace JvmAssembly

/-- The instructions mean the same to the control flow. -/
structure Instruction.Resembles (x y : Instruction) : Prop where
  uses : x.uses = y.uses
  defines : x.defines = y.defines
  adjustment : x.adjustment = y.adjustment
  fallsThrough : x.fallsThrough = y.fallsThrough
  targets : x.targets = y.targets
  isSubroutineCall : x.isSubroutineCall = y.isSubroutineCall
  ret : ∀ v, x = .ret v ↔ y = .ret v

namespace Instruction

theorem Resembles.refl (x : Instruction) : x.Resembles x :=
  ⟨rfl, rfl, rfl, rfl, rfl, rfl, fun _ => .rfl⟩

theorem resembles_marked (liveness : Liveness) (i : Nat) (x : Instruction) :
    (x.marked liveness i).Resembles x := by
  cases x with
  | store target kind discard =>
      exact ⟨rfl, rfl, rfl, rfl, rfl, rfl, fun v => ⟨nofun, nofun⟩⟩
  | _ => exact .refl _

theorem resembles_far {op far : Opcode} (form : op.farForm? = some far) (target : Label) :
    (branch far target).Resembles (branch op target) := by
  have all := Opcode.forall_of_all (p := fun op => (Opcode.farForm? op).all fun far =>
    far.branchAdjustment == op.branchAdjustment &&
      (far == Opcode.goto || far == Opcode.goto_w) ==
        (op == Opcode.goto || op == Opcode.goto_w) &&
      far.isSubroutineCall == op.isSubroutineCall) (by decide +kernel) op
  rw [form, Option.all_some, Bool.and_eq_true, Bool.and_eq_true, beq_iff_eq, beq_iff_eq,
    beq_iff_eq] at all
  obtain ⟨⟨adjustment, falls⟩, calls⟩ := all
  exact ⟨rfl, rfl, adjustment, congrArg (! ·) falls, rfl, calls, fun v => ⟨nofun, nofun⟩⟩

end Instruction

namespace Draft

variable {d d' : Draft}

theorem pointOf_congr (id : d'.id = d.id) {n : NodeId}
    (same : (d'.instructionAt n).Resembles (d.instructionAt n)) (positions : Array (Option Nat)) :
    d'.pointOf positions n = d.pointOf positions n := by
  have positionOf : d'.positionOf positions = d.positionOf positions := by
    funext label
    unfold Draft.positionOf
    rw [id]
  unfold pointOf
  dsimp only
  rw [same.uses, same.defines, same.adjustment, same.fallsThrough, same.targets,
    same.isSubroutineCall, positionOf]
  split
  · rfl
  · congr 2
    have back := same.ret
    cases found : d.instructionAt n with
    | ret v => rw [(back v).mpr found]
    | _ =>
        rw [found] at back
        cases other : d'.instructionAt n with
        | ret v => cases (back v).mp other
        | _ => rfl

/-- The control flow is a matter of the sequence and of what its instructions mean. -/
theorem flow_congr (id : d'.id = d.id) (order : d'.order = d.order)
    (size : d'.nodes.size = d.nodes.size) (handlers : d'.handlers = d.handlers)
    (same : ∀ n, (d'.instructionAt n).Resembles (d.instructionAt n)) : d'.flow = d.flow := by
  have positions : d'.positions = d.positions := by
    unfold Draft.positions
    rw [order, size]
  have points : d'.pointOf d.positions = d.pointOf d.positions := by
    funext n
    exact pointOf_congr id (same n) d.positions
  have guards : d'.guardOf d.positions = d.guardOf d.positions := by
    funext h
    unfold guardOf positionOf
    rw [id]
  unfold flow
  dsimp only
  rw [positions, order, handlers, points, guards]

section Congruence

variable {f : Flow} {v i : Nat} (valid : d.Valid) (valid' : d'.Valid) (flow : d.flow = .ok f)
  (flow' : d'.flow = .ok f) (count : d'.locals.size = d.locals.size) (inside : v < d.locals.size)

include valid valid' flow flow' count inside

theorem liveIn_congr : d'.LiveIn v i ↔ d.LiveIn v i := by
  rw [← contains_entryOf valid flow inside, ← count, contains_entryOf valid' flow' (count ▸ inside)]

theorem liveOut_congr : d'.LiveOut v i ↔ d.LiveOut v i := by
  rw [← contains_exitOf valid flow inside, ← count, contains_exitOf valid' flow' (count ▸ inside)]

theorem alive_congr : d'.Alive v i ↔ d.Alive v i :=
  or_congr (liveIn_congr valid valid' flow flow' count inside)
    (liveOut_congr valid valid' flow flow' count inside)

end Congruence

/-- The second draft is the first one with positions put in. `up` says where old positions are
found, and `down` which old position a new one stands for. -/
structure Stretches (d d' : Draft) (up down : Nat → Nat) : Prop where
  id : d'.id = d.id
  locals : d'.locals = d.locals
  handlers : d'.handlers = d.handlers
  lines : d'.lines = d.lines
  tracksLocals : d'.tracksLocals = d.tracksLocals
  reservedSlots : d'.reservedSlots = d.reservedSlots
  adjoint : ∀ i j, up i ≤ j ↔ i ≤ down j
  down_up : ∀ i, down (up i) = i
  order : ∀ i, d'.order.toList[up i]? = d.order.toList[i]?
  length : up d.order.toList.length = d'.order.toList.length
  flow : ∃ f, d'.flow = .ok f
  solid : ∀ i x, d.at? i = some x → x.isLabel = false →
    ∃ x', d'.at? (up i) = some x' ∧ x'.isLabel = false
  store : ∀ j target kind discard, d'.at? j = some (.store target kind discard) →
    ∃ i, j = up i ∧ d.at? i = some (.store target kind discard) ∧
      ∀ v < d.locals.size, d'.LiveOut v j ↔ d.LiveOut v i
  liveIn : ∀ v < d.locals.size, ∀ i, d'.LiveIn v (up i) ↔ d.LiveIn v i
  liveIn_down : ∀ v < d.locals.size, ∀ j, d'.LiveIn v j → d.LiveIn v (down j)
  alive_up : ∀ v < d.locals.size, ∀ i, d.Alive v i → d'.Alive v (up i)
  alive_down : ∀ v < d.locals.size, ∀ j, d'.Alive v j → d.Alive v (down j)
  depth : d.CallFree → d'.CallFree ∧ ∀ f f' m, d.flow = .ok f → d'.flow = .ok f' →
    f.maxStack = .ok m → f'.maxStack = .ok m

namespace Stretches

variable {d'' : Draft} {f : Flow} {up up' down down' : Nat → Nat}

/-- Where the control flow is the same, no position is put in. -/
theorem of_flow (valid : d.Valid) (valid' : d'.Valid) (flow : d.flow = .ok f)
    (flow' : d'.flow = .ok f) (id : d'.id = d.id) (order : d'.order = d.order)
    (locals : d'.locals = d.locals) (handlers : d'.handlers = d.handlers)
    (lines : d'.lines = d.lines) (tracksLocals : d'.tracksLocals = d.tracksLocals)
    (reservedSlots : d'.reservedSlots = d.reservedSlots)
    (solid : ∀ n, (d.instructionAt n).isLabel = false → (d'.instructionAt n).isLabel = false)
    (store : ∀ n target kind discard, d'.instructionAt n = .store target kind discard →
      d.instructionAt n = .store target kind discard) :
    Stretches d d' (fun i => i) (fun i => i) where
  id := id
  locals := locals
  handlers := handlers
  lines := lines
  tracksLocals := tracksLocals
  reservedSlots := reservedSlots
  adjoint _ _ := .rfl
  down_up _ := rfl
  order i := by rw [order]
  length := by rw [order]
  flow := ⟨f, flow'⟩
  solid i x here other := by
    obtain ⟨n, stored, rfl⟩ := Option.map_eq_some_iff.mp here
    exact ⟨_, by rw [at?, order, stored, Option.map_some], solid n other⟩
  store j target kind discard here := by
    obtain ⟨n, stored, found⟩ := Option.map_eq_some_iff.mp here
    rw [order] at stored
    exact ⟨j, rfl, by rw [at?, stored, Option.map_some, store n target kind discard found],
      fun v inside => liveOut_congr valid valid' flow flow' (congrArg _ locals) inside⟩
  liveIn v inside i := liveIn_congr valid valid' flow flow' (congrArg _ locals) inside
  liveIn_down v inside j := (liveIn_congr valid valid' flow flow' (congrArg _ locals) inside).mp
  alive_up v inside i := (alive_congr valid valid' flow flow' (congrArg _ locals) inside).mpr
  alive_down v inside j := (alive_congr valid valid' flow flow' (congrArg _ locals) inside).mp
  depth free := by
    refine ⟨?_, ?_⟩
    · intro i x here
      obtain ⟨p, found, described⟩ := flow_point valid' flow' here
      obtain ⟨y, there, described'⟩ := flow_instruction valid flow found
      rw [← described.isCall, described'.isCall, free i y there]
    · intro g g' m one other
      cases flow.symm.trans one
      cases flow'.symm.trans other
      exact fun measured => measured

theorem trans (first : Stretches d d' up down) (second : Stretches d' d'' up' down') :
    Stretches d d'' (up' ∘ up) (down ∘ down') where
  id := second.id.trans first.id
  locals := second.locals.trans first.locals
  handlers := second.handlers.trans first.handlers
  lines := second.lines.trans first.lines
  tracksLocals := second.tracksLocals.trans first.tracksLocals
  reservedSlots := second.reservedSlots.trans first.reservedSlots
  adjoint i j := (second.adjoint (up i) j).trans (first.adjoint i (down' j))
  down_up i := by rw [Function.comp, Function.comp, second.down_up, first.down_up]
  order i := (second.order (up i)).trans (first.order i)
  length := by rw [Function.comp, first.length, second.length]
  flow := second.flow
  solid i x here other := by
    obtain ⟨y, there, still⟩ := first.solid i x here other
    exact second.solid (up i) y there still
  store j target kind discard here := by
    obtain ⟨i, rfl, there, live⟩ := second.store j target kind discard here
    obtain ⟨k, rfl, stored, live'⟩ := first.store i target kind discard there
    exact ⟨k, rfl, stored, fun v inside =>
      (live v (first.locals ▸ inside)).trans (live' v inside)⟩
  liveIn v inside i :=
    (second.liveIn v (first.locals ▸ inside) (up i)).trans (first.liveIn v inside i)
  liveIn_down v inside j live :=
    first.liveIn_down v inside _ (second.liveIn_down v (first.locals ▸ inside) j live)
  alive_up v inside i live :=
    second.alive_up v (first.locals ▸ inside) _ (first.alive_up v inside i live)
  alive_down v inside j live :=
    first.alive_down v inside _ (second.alive_down v (first.locals ▸ inside) j live)
  depth free := by
    obtain ⟨free', same⟩ := first.depth free
    obtain ⟨free'', same'⟩ := second.depth free'
    obtain ⟨f', flow'⟩ := first.flow
    exact ⟨free'', fun f f'' m flow flow'' measured =>
      same' f' f'' m flow' flow'' (same f f' m flow flow' measured)⟩

end Stretches

namespace Detour

variable {k : Nat} {op inverted : Opcode} {target hop : Label} {f : Flow}
  (detour : Detour d d' k op inverted target hop) (valid : d.Valid) (after : d'.Valid)
  (flow : d.flow = .ok f)

include detour valid after flow

theorem labelsPlaced : d'.LabelsPlaced := by
  refine ⟨?_, ?_⟩
  · intro n member label target'
    rw [isPlaced_eq_true after]
    obtain ⟨j, stored⟩ := List.mem_iff_getElem?.mp member
    have here : d'.at? j = some (d'.instructionAt n) := by rw [at?, stored, Option.map_some]
    rcases shifted_cases k j with ⟨i, other, rfl⟩ | rfl | rfl | rfl
    · rw [detour.other i other] at here
      obtain ⟨t, there⟩ := placed_of_flow valid flow here target'
      exact ⟨_, detour.placed there⟩
    · rw [Option.some.inj (here.symm.trans detour.inverted)] at target'
      cases List.mem_singleton.mp target'
      exact ⟨_, detour.hop⟩
    · rw [Option.some.inj (here.symm.trans detour.jump)] at target'
      obtain ⟨t, there⟩ := placed_of_flow valid flow detour.branch target'
      exact ⟨_, detour.placed there⟩
    · rw [Option.some.inj (here.symm.trans detour.label)] at target'
      cases target'
  · intro h member
    rw [detour.handlers] at member
    obtain ⟨g, -, start, stop, entry⟩ := guard_of_handler valid flow member
    exact ⟨(isPlaced_eq_true after).mpr ⟨_, detour.placed start⟩,
      (isPlaced_eq_true after).mpr ⟨_, detour.placed stop⟩,
      (isPlaced_eq_true after).mpr ⟨_, detour.placed entry⟩⟩

theorem stretches (locals : d'.locals = d.locals) (lines : d'.lines = d.lines)
    (tracksLocals : d'.tracksLocals = d.tracksLocals)
    (reservedSlots : d'.reservedSlots = d.reservedSlots) :
    Stretches d d' (shifted k) (collapsed k) where
  id := detour.id
  locals := locals
  handlers := detour.handlers
  lines := lines
  tracksLocals := tracksLocals
  reservedSlots := reservedSlots
  adjoint _ _ := shifted_le_iff_le_collapsed
  down_up _ := collapsed_shifted
  order := detour.order
  length := by
    rw [detour.length, shifted, if_neg (Nat.not_le.mpr detour.inside)]
  flow := exists_flow after (detour.labelsPlaced valid after flow)
  solid i x here other := by
    by_cases same : i = k
    · subst same
      exact ⟨_, by rw [shifted_self, detour.inverted], rfl⟩
    · exact ⟨x, (detour.other i same).trans here, other⟩
  store j target kind discard here := by
    rcases shifted_cases k j with ⟨i, other, rfl⟩ | rfl | rfl | rfl
    · exact ⟨i, rfl, (detour.other i other).symm.trans here,
        fun v _ => detour.liveOut_shifted valid after flow other⟩
    · cases here.symm.trans detour.inverted
    · cases here.symm.trans detour.jump
    · cases here.symm.trans detour.label
  liveIn v _ i := detour.liveIn_shifted valid after flow
  liveIn_down v _ j live := detour.liveIn_back valid after flow live
  alive_up v _ i live := detour.alive live
  alive_down v _ j live := detour.alive_back valid after flow live
  depth free := by
    refine ⟨detour.callFree free, fun g g' m one other measured => ?_⟩
    rw [maxStack_eq_ok_iff free valid one] at measured
    rw [maxStack_eq_ok_iff (detour.callFree free) after other]
    exact detour.balanced valid after flow measured

end Detour

theorem instructionAt_setInstruction_eq {node : NodeId} (inside : node < d.nodes.size)
    (x : Instruction) (n : NodeId) :
    (d.setInstruction node x).instructionAt n = if n = node then x else d.instructionAt n := by
  split
  · rename_i same
    rw [same]
    exact instructionAt_setInstruction d x inside
  · rename_i other
    exact instructionAt_setInstruction_ne d x other

theorem flow_widenJump {node : NodeId} {op far : Opcode} {target : Label} (valid : d.Valid)
    (member : node ∈ d.order.toList) (found : d.instructionAt node = .branch op target)
    (form : op.farForm? = some far) :
    (d.setInstruction node (.branch far target)).flow = d.flow := by
  refine flow_congr rfl rfl (size_setInstruction d node _) rfl fun n => ?_
  rw [instructionAt_setInstruction_eq (valid.inside member)]
  split
  · rename_i same
    rw [same, found]
    exact Instruction.resembles_far form target
  · exact .refl _

/-- Widening a jump puts positions in, or none. -/
theorem stretches_of_widens {f : Flow} (valid : d.Valid) (flow : d.flow = .ok f)
    (widens : Widens d d') : ∃ up down, Stretches d d' up down := by
  have after := widens.valid valid
  cases widens with
  | @jump node op far target member found form =>
      have same := flow_widenJump valid member found form
      refine ⟨_, _, .of_flow valid after flow (same.trans flow) rfl rfl rfl rfl rfl rfl rfl ?_ ?_⟩
      · intro n solid
        rw [instructionAt_setInstruction_eq (valid.inside member)]
        split
        · rfl
        · exact solid
      · intro n target' kind discard stored
        rw [instructionAt_setInstruction_eq (valid.inside member)] at stored
        split at stored
        · cases stored
        · exact stored
  | @condition node op inverted target member found form opposite =>
      obtain ⟨before, behind, split⟩ := List.append_of_mem member
      have detour := detour_widenCondition valid split found opposite
      have same : d.widenCondition node inverted target = _ := widenCondition.order_eq valid split
      exact ⟨_, _, detour.stretches valid after flow (by rw [same]; rfl) (by rw [same]; rfl)
        (by rw [same]; rfl) (by rw [same]; rfl)⟩

theorem stretches_of_widened {f : Flow} (valid : d.Valid) (flow : d.flow = .ok f)
    (widened : Layout.Pass.Widened d d') : ∃ up down, Stretches d d' up down := by
  induction widened with
  | refl =>
      exact ⟨_, _, .of_flow valid valid flow flow rfl rfl rfl rfl rfl rfl rfl
        (fun _ solid => solid) fun _ _ _ _ stored => stored⟩
  | tail steps last ih =>
      obtain ⟨up, down, first⟩ := ih
      obtain ⟨f', flow'⟩ := first.flow
      obtain ⟨up', down', second⟩ :=
        stretches_of_widens (Layout.Pass.valid_widened valid steps) flow' last
      exact ⟨_, _, first.trans second⟩

/-- If no position was put in, the control flow is the same. -/
theorem flow_of_widened (valid : d.Valid) (widened : Layout.Pass.Widened d d') :
    d.order.toList.length ≤ d'.order.toList.length ∧
      (d'.order.toList.length = d.order.toList.length → d'.flow = d.flow) := by
  induction widened with
  | refl => exact ⟨Nat.le_refl _, fun _ => rfl⟩
  | tail steps last ih =>
      have valid' := Layout.Pass.valid_widened valid steps
      cases last with
      | jump member found form =>
          exact ⟨ih.1, fun same => (flow_widenJump valid' member found form).trans (ih.2 same)⟩
      | condition member found form opposite =>
          obtain ⟨before, behind, split⟩ := List.append_of_mem member
          have longer := (detour_widenCondition valid' split found opposite).length
          have grown := ih.1
          exact ⟨by omega, fun same => by omega⟩

end Draft

end JvmAssembly
