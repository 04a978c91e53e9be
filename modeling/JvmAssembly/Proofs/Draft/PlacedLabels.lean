import Mathlib
import JvmAssembly.Proofs.Draft.Faults
import JvmAssembly.Proofs.Draft.Sequence
import JvmAssembly.Proofs.Draft.Stability

/-!
Labels in use keep their places. A change brings labels into use only by its operands, and takes a
place away only from a label that nothing uses, so as long as operands have places no jump and no
handler is left without one. Layout adds jumps of its own, to labels that it places itself. The
labels of line numbers are made with their places and have them at all times.
-/
namespace JvmAssembly.Draft

section Lists

variable {xs ys : List (NodeId × Instruction)} {x y : NodeId × Instruction} {n fresh : NodeId}
  {f : NodeId × Instruction → List (NodeId × Instruction)} {change : Change}

theorem mem_substitute? (done : substitute? n f xs = some ys) (member : y ∈ ys) :
    y ∈ xs ∨ ∃ x ∈ xs, x.1 = n ∧ y ∈ f x := by
  induction xs generalizing ys with
  | nil => cases done
  | cons x xs ih =>
      rw [substitute?] at done
      split at done
      · rename_i same
        cases done
        rcases List.mem_append.mp member with put | later
        · exact .inr ⟨x, List.mem_cons_self, same, put⟩
        · exact .inl (List.mem_cons_of_mem _ later)
      · obtain ⟨zs, rest, rfl⟩ := Option.map_eq_some_iff.mp done
        rcases List.mem_cons.mp member with rfl | later
        · exact .inl List.mem_cons_self
        · rcases ih rest later with old | ⟨z, there, found⟩
          · exact .inl (List.mem_cons_of_mem _ old)
          · exact .inr ⟨z, List.mem_cons_of_mem _ there, found⟩

theorem mem_of_substitute? (done : substitute? n f xs = some ys) (member : x ∈ xs) :
    x ∈ ys ∨ x.1 = n ∧ ∀ y ∈ f x, y ∈ ys := by
  induction xs generalizing ys with
  | nil => cases member
  | cons z xs ih =>
      rw [substitute?] at done
      split at done
      · rename_i same
        cases done
        rcases List.mem_cons.mp member with rfl | later
        · exact .inr ⟨same, fun y put => List.mem_append_left _ put⟩
        · exact .inl (List.mem_append_right _ later)
      · obtain ⟨zs, rest, rfl⟩ := Option.map_eq_some_iff.mp done
        rcases List.mem_cons.mp member with rfl | later
        · exact .inl List.mem_cons_self
        · refine (ih rest later).imp (List.mem_cons_of_mem _) ?_
          rintro ⟨same, put⟩
          exact ⟨same, fun y within => List.mem_cons_of_mem _ (put y within)⟩

/-- Labels that a change brings into use. -/
def Change.operands : Change → List Label
  | .push i | .insertAfter _ i | .replace _ i => i.targets
  | .addHandler h => [h.start, h.stop, h.entry]
  | _ => []

/-- A list refers to labels that it referred to before the change, or to operands. -/
theorem Change.targets_onList? (done : change.onList? fresh xs = some ys) {label : Label}
    (member : y ∈ ys) (target : label ∈ y.2.targets) :
    (∃ x ∈ xs, label ∈ x.2.targets) ∨ label ∈ change.operands := by
  have kept : y ∈ xs → (∃ x ∈ xs, label ∈ x.2.targets) ∨ label ∈ change.operands :=
    fun old => .inl ⟨y, old, target⟩
  have noTarget : ∀ {m : NodeId}, y = (m, .label) →
      (∃ x ∈ xs, label ∈ x.2.targets) ∨ label ∈ change.operands := by
    rintro m rfl
    cases target
  cases change with
  | createLabel | createLocal | addHandler =>
      cases done
      exact kept member
  | placeLabel | markLine =>
      cases done
      exact (List.mem_append.mp member).elim kept fun put => noTarget (List.mem_singleton.mp put)
  | push i =>
      cases done
      rcases List.mem_append.mp member with old | put
      · exact kept old
      · cases List.mem_singleton.mp put
        exact .inr target
  | placeLabelAfter anchor other =>
      rcases mem_substitute? done member with old | ⟨x, there, -, put⟩
      · exact kept old
      · rcases List.mem_pair.mp put with rfl | rfl
        · exact kept there
        · exact noTarget rfl
  | insertAfter anchor i =>
      rcases mem_substitute? done member with old | ⟨x, there, -, put⟩
      · exact kept old
      · rcases List.mem_pair.mp put with rfl | rfl
        · exact kept there
        · exact .inr target
  | remove node =>
      rcases mem_substitute? done member with old | ⟨x, -, -, put⟩
      · exact kept old
      · cases put
  | replace node i =>
      rcases mem_substitute? done member with old | ⟨x, -, -, put⟩
      · exact kept old
      · cases List.mem_singleton.mp put
        exact .inr target

/-- Only a node that is taken out leaves the list. -/
theorem Change.nodes_onList? (done : change.onList? fresh xs = some ys) (member : x ∈ xs) :
    (∃ y ∈ ys, y.1 = x.1) ∨ change = .remove x.1 := by
  cases change with
  | createLabel | createLocal | addHandler =>
      cases done
      exact .inl ⟨x, member, rfl⟩
  | placeLabel | markLine | push =>
      cases done
      exact .inl ⟨x, List.mem_append_left _ member, rfl⟩
  | placeLabelAfter anchor other | insertAfter anchor i =>
      rcases mem_of_substitute? done member with stays | ⟨-, put⟩
      · exact .inl ⟨x, stays, rfl⟩
      · exact .inl ⟨x, put x List.mem_cons_self, rfl⟩
  | remove node =>
      rcases mem_of_substitute? done member with stays | ⟨rfl, -⟩
      · exact .inl ⟨x, stays, rfl⟩
      · exact .inr rfl
  | replace node i =>
      rcases mem_of_substitute? done member with stays | ⟨same, put⟩
      · exact .inl ⟨x, stays, rfl⟩
      · exact .inl ⟨(node, i), put _ (List.mem_singleton_self _), same.symm⟩

end Lists

section Changes

variable {d d' : Draft} {label : Label} {change : Change}

/-- Every line number is that of a label with a place. -/
def LinesPlaced (d : Draft) : Prop := ∀ line ∈ d.lines, d.isPlaced line.1 = true

/-- A placed instruction, a handler or a line number needs the label. -/
def Needs (d : Draft) (label : Label) : Prop :=
  d.Refers label ∨ ∃ line ∈ d.lines, line.1 = label

theorem labelsPlaced_iff : d.LabelsPlaced ↔ ∀ label, d.Refers label → d.isPlaced label = true := by
  constructor
  · rintro placed label (⟨n, member, target⟩ | ⟨h, member, rfl | rfl | rfl⟩)
    · exact placed.targets n member label target
    · exact (placed.handlers h member).1
    · exact (placed.handlers h member).2.1
    · exact (placed.handlers h member).2.2
  · intro placed
    exact ⟨fun n member label target => placed label (.inl ⟨n, member, target⟩),
      fun h member => ⟨placed _ (.inr ⟨h, member, .inl rfl⟩),
        placed _ (.inr ⟨h, member, .inr (.inl rfl)⟩), placed _ (.inr ⟨h, member, .inr (.inr rfl)⟩)⟩⟩

theorem isReferenced_of_needs (needs : d.Needs label) : d.isReferenced label = true := by
  unfold isReferenced
  simp only [Bool.or_eq_true, Array.any_eq_true', List.contains_iff_mem, beq_iff_eq]
  rcases needs with (⟨n, member, target⟩ | ⟨h, member, same⟩) | line
  · exact .inl (.inl ⟨n, Array.mem_toList_iff.mp member, target⟩)
  · refine .inl (.inr ⟨h, member, ?_⟩)
    rcases same with rfl | rfl | rfl
    · exact .inl (.inl rfl)
    · exact .inl (.inr rfl)
    · exact .inr rfl
  · exact .inr line

theorem Valid.owns_of_needs (valid : d.Valid) (needs : d.Needs label) : d.OwnsLabel label := by
  rcases needs with (⟨n, -, target⟩ | ⟨h, member, rfl | rfl | rfl⟩) | ⟨line, member, rfl⟩
  · exact (valid.owns n).targets label target
  · exact (valid.handlers h member).1
  · exact (valid.handlers h member).2.1
  · exact (valid.handlers h member).2.2
  · exact valid.lines line member

theorem Valid.isPlaced_iff (valid : d.Valid) :
    d.isPlaced label = true ↔ label.draft = d.id ∧ label.node ∈ d.order.toList := by
  rw [isPlaced, Bool.and_eq_true, beq_iff_eq, valid.placed]

theorem mem_toList {n : NodeId} : n ∈ d.order.toList ↔ ∃ x ∈ d.toList, x.1 = n := by
  constructor
  · exact fun member => ⟨_, List.mem_map_of_mem member, rfl⟩
  · rintro ⟨x, member, rfl⟩
    obtain ⟨m, there, rfl⟩ := List.mem_map.mp member
    exact there

theorem Undergoes.id (done : d.Undergoes change d') : d'.id = d.id := by
  cases done with
  | placeLabelAfter => exact (keeps_placeAfter d _ _).id
  | insertAfter => exact (keeps_placeAfter (d.allocate _) _ _).id
  | _ => rfl

theorem handlers_placeAfter (d : Draft) (anchor node : NodeId) :
    (d.placeAfter anchor node).handlers = d.handlers := by
  unfold placeAfter
  dsimp only
  split <;> rfl

theorem lines_placeAfter (d : Draft) (anchor node : NodeId) :
    (d.placeAfter anchor node).lines = d.lines := by
  unfold placeAfter
  dsimp only
  split <;> rfl

theorem Undergoes.handlers (done : d.Undergoes change d') {h : Handler} (member : h ∈ d'.handlers) :
    h ∈ d.handlers ∨ change = .addHandler h := by
  cases done with
  | placeLabelAfter =>
      rw [handlers_placeAfter] at member
      exact .inl member
  | insertAfter =>
      rw [handlers_placeAfter] at member
      exact .inl member
  | addHandler => exact (Array.mem_push.mp member).imp_right fun same => congrArg _ same.symm
  | _ => exact .inl member

/-- A new line number is that of a label at the end. -/
theorem Undergoes.lines (done : d.Undergoes change d') {line : Label × UInt16}
    (member : line ∈ d'.lines) :
    line ∈ d.lines ∨ line.1 = ⟨d.id, d.nodes.size⟩ ∧ d.nodes.size ∈ d'.order.toList := by
  cases done with
  | placeLabelAfter =>
      rw [lines_placeAfter] at member
      exact .inl member
  | insertAfter =>
      rw [lines_placeAfter] at member
      exact .inl member
  | markLine number =>
      refine (Array.mem_push.mp member).imp_right ?_
      rintro rfl
      refine ⟨rfl, ?_⟩
      change d.nodes.size ∈ (d.order.push d.nodes.size).toList
      rw [Array.toList_push]
      exact List.mem_append_right _ (List.mem_singleton_self _)
  | _ => exact .inl member

/-- A change brings no label into use but its operands. -/
theorem Valid.refers_of_apply (valid : d.Valid) (done : change.apply d = (.ok (), d'))
    (refers : d'.Refers label) : d.Refers label ∨ label ∈ change.operands := by
  rcases refers with ⟨n, member, target⟩ | ⟨h, member, role⟩
  · have listed : (n, d'.instructionAt n) ∈ d'.toList := List.mem_map_of_mem member
    refine (Change.targets_onList? (valid.toList_apply done) listed target).imp_left ?_
    rintro ⟨x, there, old⟩
    obtain ⟨m, placed, rfl⟩ := List.mem_map.mp there
    exact .inl ⟨m, placed, old⟩
  · rcases (undergoes_of_apply done).handlers member with old | rfl
    · exact .inl (.inr ⟨h, old, role⟩)
    · exact .inr (by simpa [Change.operands] using role)

/-- A label keeps its place unless it is taken out. -/
theorem Valid.isPlaced_apply (valid : d.Valid) (done : change.apply d = (.ok (), d'))
    (placed : d.isPlaced label = true) :
    d'.isPlaced label = true ∨ change = .remove label.node := by
  have valid' : d'.Valid := by
    have after := valid.apply change
    rwa [done] at after
  obtain ⟨own, member⟩ := valid.isPlaced_iff.mp placed
  obtain ⟨x, there, same⟩ := mem_toList.mp member
  rw [← same]
  refine (Change.nodes_onList? (valid.toList_apply done) there).imp_left fun stays => ?_
  rw [same] at stays
  exact valid'.isPlaced_iff.mpr ⟨own.trans (undergoes_of_apply done).id.symm, mem_toList.mpr stays⟩

theorem Valid.ne_remove_of_needs (valid : d.Valid) (done : change.apply d = (.ok (), d'))
    (needs : d.Needs label) : change ≠ .remove label.node := by
  rintro rfl
  have own := valid.owns_of_needs needs
  cases undergoes_of_apply done with
  | remove linked unused =>
      have free := unused (by rw [instructionAt_of_owns own]; rfl)
      have itself : label = ⟨d.id, label.node⟩ := by rw [← own.1]
      rw [← itself, isReferenced_of_needs needs] at free
      cases free

/-- What holds before a change and is kept by one that succeeds holds after it in any case. -/
theorem apply_induction {P : Draft → Prop} (change : Change) (before : P d)
    (step : ∀ d', change.apply d = (.ok (), d') → P d') : P (change.apply d).2 := by
  cases done : change.apply d with
  | mk result d' =>
      cases result with
      | ok u => exact step d' done
      | error fault => exact change.atomic_apply d fault d' done ▸ before

theorem LabelsPlaced.apply (before : d.LabelsPlaced) (valid : d.Valid) {change : Change}
    (given : ∀ label ∈ change.operands, d.isPlaced label = true) :
    (change.apply d).2.LabelsPlaced := by
  refine apply_induction change before fun d' done => ?_
  rw [labelsPlaced_iff] at before ⊢
  intro label refers
  rcases valid.refers_of_apply done refers with old | operand
  · exact (valid.isPlaced_apply done (before label old)).resolve_right
      (valid.ne_remove_of_needs done (.inl old))
  · refine (valid.isPlaced_apply done (given label operand)).resolve_right ?_
    rintro rfl
    cases operand

theorem LinesPlaced.apply (before : d.LinesPlaced) (valid : d.Valid) (change : Change) :
    (change.apply d).2.LinesPlaced := by
  have after := valid.apply change
  refine apply_induction change before fun d' done line member => ?_
  rw [done] at after
  rcases (undergoes_of_apply done).lines member with old | ⟨same, placed⟩
  · exact (valid.isPlaced_apply done (before line old)).resolve_right
      (valid.ne_remove_of_needs done (.inr ⟨line, old, rfl⟩))
  · rw [same]
    exact after.isPlaced_iff.mpr ⟨(undergoes_of_apply done).id.symm, placed⟩

end Changes

section Resolving

variable {d d' : Draft} {label : Label} {pool : Pool} {f : Flow}

theorem labelsPlaced_of_flow (valid : d.Valid) (flow : d.flow = .ok f) : d.LabelsPlaced := by
  have placed : ∀ {label i}, d.PlacedAt label i → d.isPlaced label = true :=
    fun there => (isPlaced_eq_true valid).mpr ⟨_, there⟩
  constructor
  · intro n member label target
    obtain ⟨i, stored⟩ := List.mem_iff_getElem?.mp member
    obtain ⟨j, there⟩ := placed_of_flow valid flow
      (Option.map_eq_some_iff.mpr ⟨n, stored, rfl⟩ : d.at? i = _) target
    exact placed there
  · intro h member
    obtain ⟨g, -, start, stop, entry⟩ := guard_of_handler valid flow member
    exact ⟨placed start, placed stop, placed entry⟩

/-- Without all labels in place, resolving ends at one that is missing and changes nothing. -/
theorem resolve_of_not_labelsPlaced (valid : d.Valid) (missing : ¬ d.LabelsPlaced) (pool : Pool) :
    ∃ label, d.Refers label ∧ d.isPlaced label = false ∧
      d.resolve pool = (.error (.unplacedLabel label), d) := by
  cases flow : d.flow with
  | ok f => exact absurd (labelsPlaced_of_flow valid flow) missing
  | error fault =>
      obtain ⟨label, refers, unknown⟩ := failsWith_flow d fault flow
      cases positionOf_eq_error unknown
      refine ⟨label, refers, ?_, by rw [resolve, flow]⟩
      by_contra placed
      obtain ⟨i, there⟩ := (isPlaced_eq_true valid).mp (Bool.eq_true_of_not_eq_false placed)
      cases unknown.symm.trans ((positionOf_eq_ok valid).mpr there)

/-- With all labels in place, whatever else goes wrong it is not a label. -/
theorem LabelsPlaced.resolve_ne_unplacedLabel (placed : d.LabelsPlaced) (valid : d.Valid) :
    (d.resolve pool).1 ≠ .error (.unplacedLabel label) := by
  intro unplaced
  have ends := resolution pool d
  generalize d.resolve pool = out at ends unplaced
  cases ends with
  | unplaced failed =>
      obtain ⟨f, flow⟩ := exists_flow valid placed
      cases flow.symm.trans failed
  | @crowded f fault slotted flow failed =>
      cases unplaced
      have slots := failsWith_allocateSlots (.ofFlow f d.locals.size) d
      rw [failed] at slots
      cases slots _ rfl
  | @unbalanced f frame fault slotted flow allocated failed =>
      cases unplaced
      cases f.failsWith_maxStack _ failed
  | unwritten flow allocated measured failed =>
      cases unplaced
      have before := prepared valid flow allocated
      rcases Layout.layout_eq_error before.valid failed with
        structural | ⟨x, -, n, -, _, _, unwritten⟩
      · cases structural
      · rcases encode_eq_error unwritten with ⟨ref, -, unknown⟩ | ⟨v, width, -, unassigned⟩
        · cases pool.failsWith_indexOf ref _ unknown
        · cases slotOf_eq_error unassigned
  | assembled flow allocated measured layout assembled =>
      cases failsWith_assemble _ _ _ _ _ _ (assembled.trans unplaced)

/-- Line numbers and places of labels are as before, and a draft that could be analysed still can
be. -/
structure Spares (d d' : Draft) : Prop where
  lines : d'.lines = d.lines
  placed : ∀ label, d.isPlaced label = true → d'.isPlaced label = true
  flow : (∃ f, d.flow = .ok f) → ∃ f, d'.flow = .ok f

theorem Spares.trans {d'' : Draft} (first : Spares d d') (second : Spares d' d'') :
    Spares d d'' where
  lines := second.lines.trans first.lines
  placed label placed := second.placed label (first.placed label placed)
  flow known := second.flow (first.flow known)

theorem Prepared.spares {frame : UInt16} {ready : Draft} (prepared : Prepared d f frame ready)
    (valid : d.Valid) : Spares d ready where
  lines := prepared.lines
  placed label placed := by
    obtain ⟨own, member⟩ := valid.isPlaced_iff.mp placed
    exact prepared.valid.isPlaced_iff.mpr
      ⟨own.trans prepared.id.symm, prepared.order ▸ member⟩
  flow _ := ⟨f, prepared.flow_ready⟩

theorem Stretches.spares {up down : Nat → Nat} (stretches : Stretches d d' up down)
    (valid : d.Valid) (valid' : d'.Valid) : Spares d d' where
  lines := stretches.lines
  placed label placed := by
    obtain ⟨i, own, there⟩ := (isPlaced_eq_true valid).mp placed
    exact (isPlaced_eq_true valid').mpr
      ⟨up i, own.trans stretches.id.symm, (stretches.order i).trans there⟩
  flow _ := stretches.flow

theorem spares_layout {result : Except Fault Layout} (valid : d.Valid) (flow : d.flow = .ok f)
    (layout : d.layout pool = (result, d')) : Spares d d' := by
  have widened := Layout.layout_widens valid layout
  obtain ⟨up, down, stretches⟩ := stretches_of_widened valid flow widened
  exact stretches.spares valid (Layout.Pass.valid_widened valid widened)

theorem Valid.spares_resolve (valid : d.Valid) (pool : Pool) : Spares d (d.resolve pool).2 := by
  have ends := resolution pool d
  generalize d.resolve pool = out at ends ⊢
  cases ends with
  | unplaced failed => exact ⟨rfl, fun _ placed => placed, fun flow => flow⟩
  | crowded flow failed =>
      rw [(allocateSlots_reslotted failed).1]
      exact ⟨rfl, fun _ placed => placed, fun flow => flow⟩
  | unbalanced flow allocated failed => exact (prepared valid flow allocated).spares valid
  | unwritten flow allocated measured failed =>
      have before := prepared valid flow allocated
      exact (before.spares valid).trans (spares_layout before.valid before.flow_ready failed)
  | assembled flow allocated measured layout assembled =>
      have before := prepared valid flow allocated
      exact (before.spares valid).trans (spares_layout before.valid before.flow_ready layout)

theorem LabelsPlaced.spared (placed : d.LabelsPlaced) (valid : d.Valid) (valid' : d'.Valid)
    (spares : Spares d d') : d'.LabelsPlaced := by
  obtain ⟨f, flow⟩ := spares.flow (exists_flow valid placed)
  exact labelsPlaced_of_flow valid' flow

theorem LabelsPlaced.layout (placed : d.LabelsPlaced) (valid : d.Valid) (pool : Pool) :
    (d.layout pool).2.LabelsPlaced := by
  have laid : d.layout pool = (_, (d.layout pool).2) := rfl
  obtain ⟨f, flow⟩ := exists_flow valid placed
  exact placed.spared valid (Layout.Pass.valid_widened valid (Layout.layout_widens valid laid))
    (spares_layout valid flow laid)

theorem Reachable.linesPlaced (reachable : d.Reachable) : d.LinesPlaced := by
  induction reachable with
  | empty id =>
      intro line member
      cases Array.not_mem_empty line member
  | createLabel before ih => exact ih.apply before.valid .createLabel
  | placeLabel label before ih => exact ih.apply before.valid (.placeLabel label)
  | placeLabelAfter anchor label before ih =>
      exact ih.apply before.valid (.placeLabelAfter anchor label)
  | push i before ih =>
      have after := ih.apply before.valid (.push i)
      rwa [Change.apply, run_discard] at after
  | insertAfter anchor i before ih =>
      have after := ih.apply before.valid (.insertAfter anchor i)
      rwa [Change.apply, run_discard] at after
  | remove node before ih =>
      have after := ih.apply before.valid (.remove node)
      rwa [Change.apply, run_discard] at after
  | replace node i before ih =>
      have after := ih.apply before.valid (.replace node i)
      rwa [Change.apply, run_discard] at after
  | createLocal name type slot before ih =>
      exact ih.apply before.valid (.createLocal name type slot)
  | addHandler h before ih => exact ih.apply before.valid (.addHandler h)
  | markLine line before ih => exact ih.apply before.valid (.markLine line)
  | trackLocals track before ih => exact ih
  | reserveSlots slots before ih => exact ih
  | resolve pool before ih =>
      have spares := before.valid.spares_resolve pool
      intro line member
      rw [spares.lines] at member
      exact spares.placed line.1 (ih line member)

end Resolving

/-- The labels of line numbers have places at all times. If those of jumps, switches and handlers
do, they still do after a change whose operands have places, after a layout and after resolving,
whether these succeed or not, and resolving does not end for want of a place. Otherwise it ends
so. -/
theorem labelsPlaced_maintained {d : Draft} (reachable : d.Reachable) :
    (∀ line ∈ d.lines, d.isPlaced line.1 = true) ∧
    (d.LabelsPlaced →
      (∀ change : Change, (∀ label ∈ change.operands, d.isPlaced label = true) →
        (change.apply d).2.LabelsPlaced) ∧
      ∀ pool, (d.layout pool).2.LabelsPlaced ∧ (d.resolve pool).2.LabelsPlaced ∧
        ∀ label, (d.resolve pool).1 ≠ .error (.unplacedLabel label)) ∧
    (¬ d.LabelsPlaced → ∀ pool, ∃ label, d.Refers label ∧ d.isPlaced label = false ∧
      d.resolve pool = (.error (.unplacedLabel label), d)) := by
  have valid := reachable.valid
  refine ⟨reachable.linesPlaced, fun placed => ⟨fun change => placed.apply valid, fun pool => ?_⟩,
    resolve_of_not_labelsPlaced valid⟩
  exact ⟨placed.layout valid pool,
    placed.spared valid (valid.resolve pool) (valid.spares_resolve pool),
    fun label => placed.resolve_ne_unplacedLabel valid⟩

/-- A guarded loop with a line number. -/
def signposted : Draft :=
  let d := ((empty 0).createLabel.2.createLabel.2).markLine 7
  let d := (push (.branch Opcode.goto ⟨0, 0⟩) (placeLabel ⟨0, 0⟩ d).2).2
  (addHandler ⟨⟨0, 0⟩, ⟨0, 1⟩, ⟨0, 0⟩, none⟩ (placeLabel ⟨0, 1⟩ d).2).2

/-- The same with a jump to a label that was not placed. -/
def signpostedAstray : Draft := (push (.branch Opcode.goto ⟨0, 4⟩) signposted.createLabel.2).2

theorem labelsPlaced_maintained_signposted :
    signposted.Reachable ∧ signposted.LabelsPlaced ∧
    (signposted.lines = #[(⟨0, 2⟩, 7)] ∧ signposted.isPlaced ⟨0, 2⟩ = true) ∧
    ((Change.insertAfter 0 (.branch Opcode.goto ⟨0, 1⟩)).apply signposted).2.LabelsPlaced ∧
    (∀ label, (signposted.resolve .empty).1 ≠ .error (.unplacedLabel label)) ∧
    signpostedAstray.Reachable ∧ ¬ signpostedAstray.LabelsPlaced ∧
    ∃ label, signpostedAstray.Refers label ∧ signpostedAstray.isPlaced label = false ∧
      signpostedAstray.resolve .empty = (.error (.unplacedLabel label), signpostedAstray) := by
  have reachable : signposted.Reachable :=
    (((((Reachable.empty 0).createLabel.createLabel.markLine 7).placeLabel _).push _).placeLabel
      _).addHandler _
  have placed : signposted.LabelsPlaced := ⟨by decide, by decide⟩
  have lines : signposted.lines = #[(⟨0, 2⟩, 7)] := rfl
  have astray : signpostedAstray.Reachable := reachable.createLabel.push _
  have missing : ¬ signpostedAstray.LabelsPlaced := fun placed =>
    absurd (placed.targets 5 (by decide) ⟨0, 4⟩ (by decide)) (by decide)
  obtain ⟨marked, kept, -⟩ := labelsPlaced_maintained reachable
  obtain ⟨changed, resolved⟩ := kept placed
  exact ⟨reachable, placed, ⟨lines, marked (⟨0, 2⟩, 7) (by rw [lines]; simp)⟩,
    changed _ (by decide), (resolved .empty).2.2, astray, missing,
    (labelsPlaced_maintained astray).2.2 missing .empty⟩

end JvmAssembly.Draft
