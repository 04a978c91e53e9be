import Mathlib
import JvmAssembly.Proofs.Draft.ControlFlow
import JvmAssembly.Proofs.Draft.Liveness

/-!
A widened condition by position. Behind the inverted jump there are two more positions, the far
jump and the label, and all later ones are two further on. What is live where, and which locals
are live together, is the same as before.
-/
namespace JvmAssembly

theorem Opcode.branchAdjustment_invert? {op inverted : Opcode} (h : op.invert? = some inverted) :
    inverted.branchAdjustment = op.branchAdjustment := by
  have all := forall_of_all (p := fun op => (invert? op).all fun c =>
    c.branchAdjustment == op.branchAdjustment) (by decide +kernel) op
  rw [h] at all
  exact beq_iff_eq.mp all

/-- Conditions are no calls and let control go on. -/
theorem Opcode.plain_of_invert? {op inverted : Opcode} (h : op.invert? = some inverted) :
    op.isSubroutineCall = false ∧ op ≠ goto ∧ op ≠ goto_w := by
  have all := forall_of_all (p := fun op => (invert? op).isNone ||
    (!op.isSubroutineCall && op != goto && op != goto_w)) (by decide +kernel) op
  rw [h] at all
  simpa [and_assoc] using all

namespace Draft

/-- Where a position is found once two have been put in behind position `k`. -/
def shifted (k i : Nat) : Nat := if i ≤ k then i else i + 2

/-- The position that a later one stands for: those that were put in stand for `k`. -/
def collapsed (k i : Nat) : Nat := if i ≤ k then i else if i ≤ k + 2 then k else i - 2

section Positions

variable {k i j : Nat}

theorem shifted_self : shifted k k = k := if_pos (Nat.le_refl k)

theorem shifted_succ_self : shifted k (k + 1) = k + 3 := by
  unfold shifted
  rw [if_neg (by omega)]

theorem shifted_succ (other : i ≠ k) : shifted k (i + 1) = shifted k i + 1 := by
  unfold shifted
  split <;> split <;> omega

theorem collapsed_shifted : collapsed k (shifted k i) = i := by
  unfold collapsed shifted
  split
  · rfl
  · rw [if_neg (by omega), if_neg (by omega)]
    omega

theorem collapsed_new (low : k ≤ i) (high : i ≤ k + 2) : collapsed k i = k := by
  unfold collapsed
  split
  · omega
  · rfl

theorem shifted_injective (same : shifted k i = shifted k j) : i = j := by
  rw [← @collapsed_shifted k i, same, collapsed_shifted]

theorem shifted_le_iff_le_collapsed : shifted k i ≤ j ↔ i ≤ collapsed k j := by
  unfold shifted collapsed
  split <;> split <;> (try split) <;> omega

theorem lt_shifted_iff_collapsed_lt : j < shifted k i ↔ collapsed k j < i := by
  rw [← Nat.not_le, shifted_le_iff_le_collapsed, Nat.not_le]

/-- A position is an old one other than `k`, or one of the three that the condition is now. -/
theorem shifted_cases (k j : Nat) :
    (∃ i, i ≠ k ∧ j = shifted k i) ∨ j = k ∨ j = k + 1 ∨ j = k + 2 := by
  by_cases low : j < k
  · exact .inl ⟨j, by omega, (if_pos (by omega)).symm⟩
  · by_cases high : k + 2 < j
    · refine .inl ⟨j - 2, by omega, ?_⟩
      unfold shifted
      rw [if_neg (by omega)]
      omega
    · omega

end Positions

/-- The second draft has, behind a condition that was inverted, a far jump to its target and the
label that the inverted jump goes to. -/
structure Detour (d d' : Draft) (k : Nat) (op inverted : Opcode) (target hop : Label) : Prop where
  id : d'.id = d.id
  handlers : d'.handlers = d.handlers
  order : ∀ i, d'.order.toList[shifted k i]? = d.order.toList[i]?
  length : d'.order.toList.length = d.order.toList.length + 2
  opposite : op.invert? = some inverted
  branch : d.at? k = some (.branch op target)
  inverted : d'.at? k = some (.branch inverted hop)
  jump : d'.at? (k + 1) = some (.branch Opcode.goto_w target)
  label : d'.at? (k + 2) = some .label
  hop : d'.PlacedAt hop (k + 2)
  other : ∀ i ≠ k, d'.at? (shifted k i) = d.at? i

variable {d d' : Draft} {k : Nat} {op inverted : Opcode} {target hop : Label}

theorem detour_widenCondition (valid : d.Valid) {node : NodeId} {before after : List NodeId}
    (split : d.order.toList = before ++ node :: after)
    (found : d.instructionAt node = .branch op target) (opposite : op.invert? = some inverted) :
    Detour d (d.widenCondition node inverted target) before.length op inverted target
      ⟨d.id, d.nodes.size⟩ := by
  have inside : node < d.nodes.size := valid.inside (by simp [split])
  have order := widenCondition.order_toList valid split inverted target
  have moved : ∀ i, (d.widenCondition node inverted target).order.toList[shifted before.length i]? =
      d.order.toList[i]? := by
    intro i
    rw [order, split]
    unfold shifted
    by_cases early : i ≤ before.length
    · rw [if_pos early]
      rcases Nat.lt_or_eq_of_le early with less | rfl
      · rw [List.getElem?_append_left less, List.getElem?_append_left less]
      · simp
    · rw [if_neg early, List.getElem?_append_right (by omega), List.getElem?_append_right (by omega)]
      obtain ⟨j, rfl⟩ := Nat.exists_eq_add_of_lt (Nat.not_le.mp early)
      have late : before.length + j + 1 + 2 - before.length = j + 1 + 2 := by omega
      have early' : before.length + j + 1 - before.length = j + 1 := by omega
      rw [late, early']
      rfl
  refine ⟨?_, ?_, moved, ?_, opposite, ?_, ?_, ?_, ?_, ⟨?_, ?_⟩, ?_⟩
  · rw [widenCondition.order_eq valid split]
    rfl
  · rw [widenCondition.order_eq valid split]
    rfl
  · simp only [order, split, List.length_append, List.length_cons]
    omega
  · simp [at?, split, found]
  · simp [at?, order, widenCondition.atNode inside]
  · simp [at?, order, widenCondition.atJump inside]
  · simp [at?, order, widenCondition.atHop inside]
  · rw [widenCondition.order_eq valid split]
    rfl
  · simp [order]
  · intro i other
    unfold at?
    rw [moved i]
    cases stored : d.order.toList[i]? with
    | none => rfl
    | some n =>
        have distinct : n ≠ node := by
          rintro rfl
          have here : d.order.toList[before.length]? = some n := by simp [split]
          have bound := (List.getElem?_eq_some_iff.mp stored).1
          exact other ((List.getElem?_inj bound valid.nodup).mp (stored.trans here.symm))
        rw [Option.map_some, Option.map_some,
          widenCondition.atOther (valid.inside (List.mem_of_getElem? stored)) distinct]

namespace Detour

variable {f : Flow} {v i j : Nat} (detour : Detour d d' k op inverted target hop)

include detour

theorem placed {label : Label} (there : d.PlacedAt label i) : d'.PlacedAt label (shifted k i) :=
  ⟨there.1.trans detour.id.symm, (detour.order i).trans there.2⟩

/-- A label that has a place keeps it. -/
theorem placed_back (after : d'.Valid) {label : Label} (old : ∃ i, d.PlacedAt label i)
    (there : d'.PlacedAt label j) : ∃ i, j = shifted k i ∧ d.PlacedAt label i := by
  obtain ⟨i, before⟩ := old
  exact ⟨i, there.unique after (detour.placed before), before⟩

theorem inside : k < d.order.toList.length := by
  obtain ⟨n, stored, -⟩ := Option.map_eq_some_iff.mp detour.branch
  exact (List.getElem?_eq_some_iff.mp stored).1

theorem shifted_inside (bound : i < d.order.toList.length) :
    shifted k i < d'.order.toList.length := by
  rw [detour.length]
  unfold shifted
  split <;> omega

theorem inside_of_shifted (bound : shifted k i < d'.order.toList.length) :
    i < d.order.toList.length := by
  have inside := detour.inside
  rw [detour.length] at bound
  unfold shifted at bound
  split at bound <;> omega

/-- A handler guards the positions that were put in as it guards the condition. -/
theorem throws (before : d.Throws (collapsed k i) j) : d'.Throws i (shifted k j) := by
  obtain ⟨h, member, start, stop, first, last, low, high, entry⟩ := before
  exact ⟨h, detour.handlers ▸ member, _, _, detour.placed first, detour.placed last,
    shifted_le_iff_le_collapsed.mpr low, lt_shifted_iff_collapsed_lt.mpr high, detour.placed entry⟩

theorem throws_back (valid : d.Valid) (after : d'.Valid) (flow : d.flow = .ok f)
    (throws : d'.Throws i j) : ∃ j', j = shifted k j' ∧ d.Throws (collapsed k i) j' := by
  obtain ⟨h, member, start', stop', first', last', low, high, entry'⟩ := throws
  rw [detour.handlers] at member
  obtain ⟨g, -, hstart, hstop, hentry⟩ := guard_of_handler valid flow member
  obtain ⟨start, rfl, first⟩ := detour.placed_back after ⟨_, hstart⟩ first'
  obtain ⟨stop, rfl, last⟩ := detour.placed_back after ⟨_, hstop⟩ last'
  obtain ⟨j', rfl, entry⟩ := detour.placed_back after ⟨_, hentry⟩ entry'
  exact ⟨j', rfl, h, member, start, stop, first, last, shifted_le_iff_le_collapsed.mp low,
    lt_shifted_iff_collapsed_lt.mp high, entry⟩

/-- The condition is not a call. -/
theorem elsewhere {x : Instruction} (here : d.at? i = some x) (calls : x.isSubroutineCall = true) :
    i ≠ k := by
  rintro rfl
  cases here.symm.trans detour.branch
  rw [Instruction.isSubroutineCall, (Opcode.plain_of_invert? detour.opposite).1] at calls
  cases calls

theorem edge (other : i ≠ k) (before : d.Edge i j) : d'.Edge (shifted k i) (shifted k j) := by
  cases before with
  | next here falls inside =>
      rw [shifted_succ other]
      refine .next ((detour.other i other).trans here) falls ?_
      rw [← shifted_succ other]
      exact detour.shifted_inside inside
  | jump here member there =>
      exact .jump ((detour.other i other).trans here) member (detour.placed there)
  | ret here there calls inside =>
      rename_i v c call
      have elsewhere := detour.elsewhere there calls
      rw [shifted_succ elsewhere]
      refine .ret ((detour.other i other).trans here) ((detour.other c elsewhere).trans there)
        calls ?_
      rw [← shifted_succ elsewhere]
      exact detour.shifted_inside inside

theorem edge_inverted : d'.Edge k (k + 1) ∧ d'.Edge k (k + 2) := by
  have bound := detour.inside
  have size := detour.length
  refine ⟨.next detour.inverted ?_ (by omega),
    .jump detour.inverted (List.mem_singleton_self _) detour.hop⟩
  have plain := Opcode.plain_of_invert? (Opcode.invert?_invert? detour.opposite)
  simp [Instruction.fallsThrough, plain.2.1, plain.2.2]

theorem edge_jump (there : d.PlacedAt target j) : d'.Edge (k + 1) (shifted k j) :=
  .jump detour.jump (List.mem_singleton_self _) (detour.placed there)

theorem edge_label (inside : k + 1 < d.order.toList.length) : d'.Edge (k + 2) (k + 3) := by
  have size := detour.length
  exact .next detour.label rfl (by omega)

/-- Calls are where they were. -/
theorem call_back {x : Instruction} (here : d'.at? j = some x) (calls : x.isSubroutineCall = true) :
    ∃ i, i ≠ k ∧ j = shifted k i ∧ d.at? i = some x := by
  rcases shifted_cases k j with ⟨i, other, rfl⟩ | rfl | rfl | rfl
  · exact ⟨i, other, rfl, (detour.other i other).symm.trans here⟩
  · cases here.symm.trans detour.inverted
    have plain := Opcode.plain_of_invert? (Opcode.invert?_invert? detour.opposite)
    rw [Instruction.isSubroutineCall, plain.1] at calls
    cases calls
  · cases here.symm.trans detour.jump
    cases calls
  · cases here.symm.trans detour.label
    cases calls

/-- From the old positions other than the condition control goes where it went. -/
theorem edge_back (valid : d.Valid) (after : d'.Valid) (flow : d.flow = .ok f) (other : i ≠ k)
    (edge : d'.Edge (shifted k i) j) : ∃ j', j = shifted k j' ∧ d.Edge i j' := by
  have same := detour.other i other
  cases edge with
  | next here falls inside =>
      rw [same] at here
      refine ⟨i + 1, (shifted_succ other).symm, .next here falls ?_⟩
      rw [← shifted_succ other] at inside
      exact detour.inside_of_shifted inside
  | jump here member there =>
      rw [same] at here
      have old := placed_of_flow valid flow here member
      obtain ⟨j', rfl, before⟩ := detour.placed_back after old there
      exact ⟨j', rfl, .jump here member before⟩
  | ret here there calls inside =>
      rw [same] at here
      obtain ⟨c, elsewhere, rfl, before⟩ := detour.call_back there calls
      rw [← shifted_succ elsewhere] at inside
      exact ⟨c + 1, (shifted_succ elsewhere).symm,
        .ret here before calls (detour.inside_of_shifted inside)⟩

theorem edge_inverted_back (after : d'.Valid) (edge : d'.Edge k j) : j = k + 1 ∨ j = k + 2 := by
  cases edge with
  | next => exact .inl rfl
  | jump here member there =>
      cases here.symm.trans detour.inverted
      cases List.mem_singleton.mp member
      exact .inr (there.unique after detour.hop)
  | ret here => cases here.symm.trans detour.inverted

theorem edge_jump_back (valid : d.Valid) (after : d'.Valid) (flow : d.flow = .ok f)
    (edge : d'.Edge (k + 1) j) : ∃ j', j = shifted k j' ∧ d.Edge k j' := by
  cases edge with
  | next here falls =>
      cases here.symm.trans detour.jump
      cases falls
  | jump here member there =>
      cases here.symm.trans detour.jump
      have member := List.mem_singleton.mpr (List.mem_singleton.mp member)
      have old := placed_of_flow valid flow detour.branch member
      obtain ⟨j', rfl, before⟩ := detour.placed_back after old there
      exact ⟨j', rfl, .jump detour.branch member before⟩
  | ret here => cases here.symm.trans detour.jump

theorem falls_branch : (Instruction.branch op target).fallsThrough = true := by
  have plain := Opcode.plain_of_invert? detour.opposite
  simp [Instruction.fallsThrough, plain.2.1, plain.2.2]

theorem edge_label_back (edge : d'.Edge (k + 2) j) : j = shifted k (k + 1) ∧ d.Edge k (k + 1) := by
  cases edge with
  | next here falls inside =>
      rw [detour.length] at inside
      exact ⟨shifted_succ_self.symm, .next detour.branch detour.falls_branch (by omega)⟩
  | jump here member =>
      cases here.symm.trans detour.label
      cases member
  | ret here => cases here.symm.trans detour.label

/-- The new positions write no local. -/
theorem unwritten {x : Instruction} {w : Local} (low : k ≤ j) (high : j ≤ k + 2)
    (here : d'.at? j = some x) : x.uses ≠ some w ∧ x.defines ≠ some w := by
  obtain rfl | rfl | rfl : j = k ∨ j = k + 1 ∨ j = k + 2 := by omega
  · cases here.symm.trans detour.inverted
    exact ⟨nofun, nofun⟩
  · cases here.symm.trans detour.jump
    exact ⟨nofun, nofun⟩
  · cases here.symm.trans detour.label
    exact ⟨nofun, nofun⟩

/-- What is live behind one of the new positions is live on entry to it. -/
theorem liveIn_of_edge (low : k ≤ i) (high : i ≤ k + 2) (edge : d'.Edge i j)
    (live : d'.LiveIn v j) : d'.LiveIn v i := by
  obtain ⟨x, here⟩ := edge.source
  exact .pass here (fun w defines => ((detour.unwritten low high here).2 defines).elim) edge live

theorem liveIn_label (live : d'.LiveIn v (k + 3)) : d'.LiveIn v (k + 2) := by
  obtain ⟨x, here⟩ := live.source
  obtain ⟨n, stored, -⟩ := Option.map_eq_some_iff.mp here
  have bound := (List.getElem?_eq_some_iff.mp stored).1
  rw [detour.length] at bound
  exact detour.liveIn_of_edge (by omega) (by omega) (detour.edge_label (by omega)) live

theorem liveIn (live : d.LiveIn v i) : d'.LiveIn v (shifted k i) := by
  induction live with
  | read here uses same =>
      rename_i i x w
      have other : i ≠ k := by
        rintro rfl
        cases here.symm.trans detour.branch
        cases uses
      exact .read ((detour.other i other).trans here) uses same
  | pass here unwritten edge _ ih =>
      rename_i i j x _
      by_cases other : i = k
      · subst other
        rw [shifted_self]
        cases edge with
        | next _ _ inside =>
            rw [shifted_succ_self] at ih
            exact detour.liveIn_of_edge (by omega) (by omega) detour.edge_inverted.2
              (detour.liveIn_label ih)
        | jump there member place =>
            cases there.symm.trans detour.branch
            cases List.mem_singleton.mp member
            exact detour.liveIn_of_edge (by omega) (by omega) detour.edge_inverted.1
              (detour.liveIn_of_edge (by omega) (by omega) (detour.edge_jump place) ih)
        | ret there => cases there.symm.trans detour.branch
      · exact .pass ((detour.other i other).trans here) unwritten (detour.edge other edge) ih
  | throw here throws _ ih =>
      rename_i i j x _
      have after : d'.Throws (shifted k i) (shifted k j) :=
        detour.throws (by rwa [collapsed_shifted])
      obtain ⟨x, there⟩ := after.source
      exact .throw there after ih

theorem liveIn_back (valid : d.Valid) (after : d'.Valid) (flow : d.flow = .ok f)
    (live : d'.LiveIn v i) : d.LiveIn v (collapsed k i) := by
  induction live with
  | read here uses same =>
      rename_i i x w
      rcases shifted_cases k i with ⟨i, other, rfl⟩ | new
      · rw [collapsed_shifted]
        exact .read ((detour.other i other).symm.trans here) uses same
      · exact ((detour.unwritten (by omega) (by omega) here).1 uses).elim
  | pass here unwritten edge _ ih =>
      rename_i i j x _
      have pass : ∀ j', d.Edge k j' → d.LiveIn v j' → d.LiveIn v k := fun j' edge live =>
        .pass detour.branch nofun edge live
      rcases shifted_cases k i with ⟨i, other, rfl⟩ | rfl | rfl | rfl
      · obtain ⟨j', rfl, before⟩ := detour.edge_back valid after flow other edge
        rw [collapsed_shifted] at ih ⊢
        exact .pass ((detour.other i other).symm.trans here) unwritten before ih
      · rw [collapsed_new (by omega) (by omega)]
        have next := detour.edge_inverted_back after edge
        rwa [collapsed_new (by omega) (by omega)] at ih
      · obtain ⟨j', rfl, before⟩ := detour.edge_jump_back valid after flow edge
        rw [collapsed_shifted] at ih
        rw [collapsed_new (by omega) (by omega)]
        exact pass j' before ih
      · obtain ⟨rfl, before⟩ := detour.edge_label_back edge
        rw [collapsed_shifted] at ih
        rw [collapsed_new (by omega) (by omega)]
        exact pass _ before ih
  | throw here throws _ ih =>
      obtain ⟨j', rfl, before⟩ := detour.throws_back valid after flow throws
      obtain ⟨x, there⟩ := before.source
      rw [collapsed_shifted] at ih
      exact .throw there before ih

theorem liveIn_shifted (valid : d.Valid) (after : d'.Valid) (flow : d.flow = .ok f) :
    d'.LiveIn v (shifted k i) ↔ d.LiveIn v i := by
  refine ⟨fun live => ?_, detour.liveIn⟩
  have before := detour.liveIn_back valid after flow live
  rwa [collapsed_shifted] at before

theorem liveOut_shifted (valid : d.Valid) (after : d'.Valid) (flow : d.flow = .ok f)
    (other : i ≠ k) : d'.LiveOut v (shifted k i) ↔ d.LiveOut v i := by
  constructor
  · rintro ⟨j, edge, live⟩
    obtain ⟨j', rfl, before⟩ := detour.edge_back valid after flow other edge
    exact ⟨j', before, (detour.liveIn_shifted valid after flow).mp live⟩
  · rintro ⟨j, edge, live⟩
    exact ⟨_, detour.edge other edge, detour.liveIn live⟩

end Detour

/-- The local is live on entry to the position or on exit from it. -/
def Alive (d : Draft) (v i : Nat) : Prop := d.LiveIn v i ∨ d.LiveOut v i

namespace Detour

variable {f : Flow} {v i j : Nat} (detour : Detour d d' k op inverted target hop)

include detour

theorem alive (live : d.Alive v i) : d'.Alive v (shifted k i) := by
  rcases live with live | ⟨j, edge, live⟩
  · exact .inl (detour.liveIn live)
  · by_cases other : i = k
    · subst other
      exact .inl (detour.liveIn (.pass detour.branch nofun edge live))
    · exact .inr ⟨_, detour.edge other edge, detour.liveIn live⟩

theorem alive_back (valid : d.Valid) (after : d'.Valid) (flow : d.flow = .ok f)
    (live : d'.Alive v i) : d.Alive v (collapsed k i) := by
  rcases live with live | live
  · exact .inl (detour.liveIn_back valid after flow live)
  · rcases shifted_cases k i with ⟨i, other, rfl⟩ | new
    · rw [collapsed_shifted]
      exact .inr ((detour.liveOut_shifted valid after flow other).mp live)
    · obtain ⟨j, edge, live⟩ := live
      exact .inl (detour.liveIn_back valid after flow
        (detour.liveIn_of_edge (by omega) (by omega) edge live))

end Detour

end Draft

end JvmAssembly
