import Mathlib
import JvmAssembly.Proofs.Builder.Redoing

/-!
A script line by line. A script first makes a label for each target. Then it has a line for every
instruction, which places the label of its address, if there is one, and does the instruction again.
Carried out on a builder without nodes, it leaves the labels and behind them the instructions as
nodes, in an order that follows from the addresses.
-/
namespace JvmAssembly

namespace Writing

variable {lab loc β : Type} {s : Script lab loc}

/-- A script in which labels have been made and nothing else. -/
structure Labelled (s : Script lab loc) : Prop where
  ops : s.ops.toList = List.replicate s.addresses.size .createLabel
  labels (a n : Nat) : s.labels[a]? = some n ↔ s.addresses[n]? = some a

theorem Labelled.unique (labelled : Labelled s) {a a' n : Nat} (first : s.labels[a]? = some n)
    (second : s.labels[a']? = some n) : a = a' := by
  rw [labelled.labels] at first second
  exact Option.some.inj (first.symm.trans second)

/-- An action that makes the missing labels of some addresses. -/
def Adds (addresses : Nat → Prop) (x : Writing lab loc Unit) : Prop :=
  ∀ s, Labelled s → ∃ s', x s = (.ok (), s') ∧ Labelled s' ∧ s'.slots = s.slots ∧
    ∀ a, a ∈ s'.labels ↔ a ∈ s.labels ∨ addresses a

theorem adds_labelAt (address : Nat) :
    Adds (· = address) (discard (labelAt address) : Writing lab loc Unit) := by
  intro s labelled
  rw [run_discard, labelAt]
  cases found : s.labels[address]? with
  | some n =>
      refine ⟨s, rfl, labelled, rfl, fun a => ⟨.inl, ?_⟩⟩
      rintro (known | rfl)
      · exact known
      · rw [Std.HashMap.mem_iff_isSome_getElem?, found]
        rfl
  | none =>
      refine ⟨_, rfl, ⟨?_, ?_⟩, rfl, ?_⟩
      · rw [Array.toList_push, labelled.ops, Array.size_push, List.replicate_succ']
      · intro a n
        rw [Std.HashMap.getElem?_insert, Array.getElem?_push]
        by_cases same : address = a
        · rw [if_pos (beq_iff_eq.mpr same), Option.some.injEq]
          by_cases last : n = s.addresses.size
          · rw [if_pos last, last, same]
            simp
          · rw [if_neg last, ← labelled.labels, ← same, found]
            simp [Ne.symm last]
        · rw [if_neg (beq_iff_eq.not.mpr same), labelled.labels]
          by_cases last : n = s.addresses.size
          · rw [if_pos last, last, Array.getElem?_eq_none (Nat.le_refl _)]
            simp [same]
          · rw [if_neg last]
      · intro a
        rw [Std.HashMap.mem_insert, beq_iff_eq, or_comm, eq_comm]

theorem adds_forM {xs : List β} {f : β → Writing lab loc Unit} {addresses : β → Nat → Prop}
    (each : ∀ x, Adds (addresses x) (f x)) :
    Adds (fun a => ∃ x ∈ xs, addresses x a) (xs.forM f) := by
  intro s labelled
  induction xs generalizing s with
  | nil => exact ⟨s, rfl, labelled, rfl, fun a => by simp⟩
  | cons x xs ih =>
      obtain ⟨s₁, ran, labelled₁, slots, new⟩ := each x s labelled
      obtain ⟨s₂, later, labelled₂, slots', new'⟩ := ih s₁ labelled₁
      refine ⟨s₂, ?_, labelled₂, slots'.trans slots, fun a => ?_⟩
      · exact run_bind_eq_ok.mpr ⟨(), s₁, ran, later⟩
      · simp only [new', new, or_assoc, List.exists_mem_cons_iff]

/-- Labels for all targets of a listing. -/
theorem adds_targets (xs : List Listed) :
    Adds (fun a => ∃ x ∈ xs, a ∈ x.instruction.targets)
      (xs.forM fun x => x.instruction.targets.forM fun t => discard (labelAt t) :
        Writing lab loc Unit) := by
  refine adds_forM fun x => ?_
  have each : Adds (fun a => ∃ t ∈ x.instruction.targets, a = t)
      (x.instruction.targets.forM fun t => discard (labelAt t) : Writing lab loc Unit) :=
    adds_forM adds_labelAt
  simpa only [exists_eq_right'] using each

/-- The operation that places the label of an address. -/
def placing (labels : Std.HashMap Nat Nat) (address : Nat) : List (Op (Handle lab) (Handle loc)) :=
  (labels[address]?).toList.map fun n => .placeLabel (.made n)

theorem place_eq (address : Nat) (s : Script lab loc) :
    place address s =
      (.ok (), { s with ops := s.ops ++ (placing s.labels address).toArray }) := by
  unfold place placing
  cases s.labels[address]? with
  | none => simp
  | some n => simp [emit]

/-- Operations for the lines of a method, each with the address of its line. -/
def scripted (labels : Std.HashMap Nat Nat) (steps : List (Nat × Op (Handle lab) (Handle loc))) :
    List (Op (Handle lab) (Handle loc)) :=
  steps.flatMap fun step => placing labels step.1 ++ [step.2]

theorem scripted_cons (labels : Std.HashMap Nat Nat) (step : Nat × Op (Handle lab) (Handle loc))
    (steps : List (Nat × Op (Handle lab) (Handle loc))) :
    scripted labels (step :: steps) =
      placing labels step.1 ++ [step.2] ++ scripted labels steps :=
  List.flatMap_cons

end Writing

namespace Emit

open Writing

variable {base : Workspace} {table : Pool.IndexTable} {fixed : List UInt16}
  {s : Script Label Local} {labels : Std.HashMap Nat Nat}

/-- One line of a method: the address and the instruction there. -/
abbrev Line := Nat × Instruction

/-- An operation of a script is for the line. -/
def Tells (base : Workspace) (labels : Std.HashMap Nat Nat)
    (step : Nat × Op (Handle Label) (Handle Local)) (line : Line) : Prop :=
  step.1 = line.1 ∧ Redoes base labels step.2 line.2

theorem listed_eq_ok {rows : Std.HashMap Nat (List UInt16)} (unlined : ∀ a, rows.getD a [] = [])
    {x : Listed} {y : Instruction}
    (redone : ∀ ops, Redone base table fixed { s with ops } x.instruction y)
    (ops : Array (Op (Handle Label) (Handle Local))) :
    ∃ op, Redoes base s.labels op y ∧
      Writing.listed ⟨base.pool, table⟩ base.builder.owner.text fixed none rows x { s with ops } =
        (.ok (), { s with ops := ops ++ (placing s.labels x.start ++ [op]).toArray }) := by
  obtain ⟨op, written, redoes⟩ := redone (ops ++ (placing s.labels x.start).toArray)
  refine ⟨op, redoes, run_bind_eq_ok.mpr ⟨(), _, place_eq x.start { s with ops }, ?_⟩⟩
  refine run_bind_eq_ok.mpr ⟨(), _, by rw [unlined x.start]; rfl, written.trans ?_⟩
  rw [← List.append_toArray, ← Array.append_assoc]
  rfl

/-- The script has for each line of the listing the operation that makes it again. -/
theorem instructions_eq_ok {rows : Std.HashMap Nat (List UInt16)}
    (unlined : ∀ a, rows.getD a [] = []) {xs : List Listed} {lines : List Line}
    (redone : List.Forall₂ (fun x line => x.start = line.1 ∧
      ∀ ops, Redone base table fixed { s with ops } x.instruction line.2) xs lines)
    (ops : Array (Op (Handle Label) (Handle Local))) :
    ∃ steps, List.Forall₂ (Tells base s.labels) steps lines ∧
      Writing.instructions ⟨base.pool, table⟩ base.builder.owner.text fixed none rows xs
          { s with ops } =
        (.ok (), { s with ops := ops ++ (scripted s.labels steps).toArray }) := by
  induction redone generalizing rows ops with
  | nil => exact ⟨[], .nil, by simp [scripted]; rfl⟩
  | @cons x line xs lines first _ ih =>
      have fewer : ∀ a, (rows.erase x.start).getD a [] = [] := by
        intro a
        rw [Std.HashMap.getD_erase, unlined, ite_self]
      obtain ⟨op, redoes, ran⟩ := listed_eq_ok unlined first.2 ops
      obtain ⟨steps, tells, later⟩ := ih fewer (ops ++ (placing s.labels x.start ++ [op]).toArray)
      refine ⟨(x.start, op) :: steps, .cons ⟨first.1, redoes⟩ tells, ?_⟩
      rw [instructions_cons]
      refine run_bind_eq_ok.mpr ⟨(), _, ran, later.trans ?_⟩
      simp [scripted_cons]

section Runs

variable {b : Bindings} {nodes : Array Node} {order : Array NodeId}

/-- The labels of a script are the nodes with their numbers. -/
def LabelsBound (base : Workspace) (labels : Std.HashMap Nat Nat) (b : Bindings) : Prop :=
  ∀ a n : Nat, labels[a]? = some n → b.labels[n]? = some ⟨base.builder.draft.id, n⟩

/-- An instruction whose operands belong to the draft becomes its last node. -/
theorem push_eq_ok {d : Draft} {y : Instruction} (owns : d.Owns y) :
    Draft.push y d = (.ok d.nodes.size, { d with
      nodes := d.nodes.push ⟨y, true⟩
      order := d.order.push d.nodes.size }) := by
  have nodes : (d.nodes.push ⟨y, false⟩).modify d.nodes.size (fun x => { x with placed := true }) =
      d.nodes.push ⟨y, true⟩ := by
    refine Array.ext_getElem? fun n => ?_
    rw [Array.getElem?_modify, Array.getElem?_push, Array.getElem?_push]
    by_cases last : n = d.nodes.size
    · rw [if_pos last.symm, if_pos last, if_pos last]
      rfl
    · rw [if_neg (Ne.symm last), if_neg last, if_neg last]
  rw [Draft.push, Draft.checkInstruction_eq_ok.mpr owns, ← nodes]
  rfl

theorem editing_eq {α : Type} (e : Edit α) (ws : Workspace) :
    editing e ws = ((e ws.builder.draft).1,
      { ws with builder := { ws.builder with draft := (e ws.builder.draft).2 } }) := rfl

/-- A builder makes labels one after the other. -/
theorem run_createLabels (base : Workspace) (k : Nat) (b : Bindings) (nodes : Array Node)
    (order : Array NodeId) (more : List (Op (Handle Label) (Handle Local))) :
    run b (List.replicate k .createLabel ++ more) (base.withNodes nodes order) =
      run ⟨b.labels ++ ((List.range k).map fun i =>
          (⟨base.builder.draft.id, nodes.size + i⟩ : Label)).toArray, b.locals⟩ more
        (base.withNodes (nodes ++ Array.replicate k ⟨.label, false⟩) order) := by
  induction k generalizing b nodes with
  | zero => simp
  | succ k ih =>
      have made : perform (Op.createLabel : Op Label Local) (base.withNodes nodes order) =
          (.ok (.label ⟨base.builder.draft.id, nodes.size⟩),
            base.withNodes (nodes.push ⟨.label, false⟩) order) := rfl
      rw [List.replicate_succ, List.cons_append, run]
      dsimp only [Op.map]
      rw [made]
      dsimp only
      rw [ih]
      congr 1
      · simp only [Bindings.add]
        congr 1
        rw [List.range_succ_eq_map]
        simp [Function.comp_def, Nat.add_assoc, Nat.add_comm 1]
      · congr 1
        simp [Array.replicate_succ']

/-- Placing the label of an address puts its node last, if there is one. -/
theorem run_placing (bound : LabelsBound base labels b) {address : Nat}
    (free : ∀ n, labels[address]? = some n → nodes[n]? = some ⟨.label, false⟩)
    (order : Array NodeId) :
    ∃ nodes' order', nodes'.map (·.instruction) = nodes.map (·.instruction) ∧
      (∀ n : Nat, labels[address]? ≠ some n → nodes'[n]? = nodes[n]?) ∧
      order'.toList = order.toList ++ (labels[address]?).toList ∧
      ∀ more, run b (placing labels address ++ more) (base.withNodes nodes order) =
        run b more (base.withNodes nodes' order') := by
  unfold placing
  cases found : labels[address]? with
  | none => exact ⟨nodes, order, rfl, fun _ _ => rfl, by simp, fun _ => rfl⟩
  | some n =>
      have here := free n found
      refine ⟨nodes.modify n fun node => { node with placed := true }, order.push n, ?_, ?_,
        by simp, fun more => ?_⟩
      · refine Array.ext_getElem? fun m => ?_
        rw [Array.getElem?_map, Array.getElem?_map, Array.getElem?_modify]
        split
        · cases nodes[m]? <;> rfl
        · rfl
      · intro m other
        rw [Array.getElem?_modify, if_neg (fun same => other (congrArg some same))]
      · have owned : (base.withNodes nodes order).builder.draft.checkPlaceable
            ⟨base.builder.draft.id, n⟩ = .ok () := by
          refine Draft.checkPlaceable_eq_ok.mpr ⟨⟨rfl, false, here⟩, ?_⟩
          have stored : (base.withNodes nodes order).builder.draft.nodes[n]? =
              some ⟨.label, false⟩ := here
          simp only [Draft.isPlacedNode, stored]
        have label : b.label (base.withNodes nodes order).builder.draft (.made n) =
            ⟨base.builder.draft.id, n⟩ := by
          rw [Bindings.label, Array.getD_eq_getD_getElem?, bound address n found, Option.getD_some]
        have placed : perform (Op.placeLabel ⟨base.builder.draft.id, n⟩ : Op Label Local)
            (base.withNodes nodes order) =
            (.ok .nothing, base.withNodes (nodes.modify n fun node => { node with placed := true })
              (order.push n)) := by
          refine run_bind_eq_ok.mpr ⟨(), _, ?_, rfl⟩
          rw [editing_eq, Draft.placeLabel, owned]
          rfl
        rw [Option.toList_some, List.map_singleton, List.singleton_append, run]
        dsimp only [Op.map]
        rw [label, placed]
        rfl

/-- Doing an instruction again puts it last. -/
theorem run_redone (bound : LabelsBound base labels b) {op : Op (Handle Label) (Handle Local)}
    {y : Instruction} (redoes : Redoes base labels op y)
    (owns : (base.withNodes nodes order).builder.draft.Owns y)
    (more : List (Op (Handle Label) (Handle Local))) :
    run b (op :: more) (base.withNodes nodes order) =
      run b more (base.withNodes (nodes.push ⟨y, true⟩) (order.push nodes.size)) := by
  have pushed : silently (push y) (base.withNodes nodes order) =
      (.ok .nothing, base.withNodes (nodes.push ⟨y, true⟩) (order.push nodes.size)) := by
    refine run_bind_eq_ok.mpr ⟨(), _, ?_, rfl⟩
    rw [push, editing_eq, run_discard, push_eq_ok owns]
    rfl
  rw [run, redoes b nodes order bound, pushed]
  rfl

/-- The instruction refers to labels of the script and locals of the workspace. -/
structure Refers (base : Workspace) (labels : Std.HashMap Nat Nat) (y : Instruction) : Prop where
  targets : ∀ target ∈ y.targets, target.draft = base.builder.draft.id ∧
    ∃ a : Nat, labels[a]? = some target.node
  uses : ∀ v, y.uses = some v → base.builder.draft.OwnsLocal v
  defines : ∀ v, y.defines = some v → base.builder.draft.OwnsLocal v

theorem Refers.owns {y : Instruction} (refers : Refers base labels y)
    (existing : ∀ a n : Nat, labels[a]? = some n → (nodes[n]?).map (·.instruction) = some .label)
    (order : Array NodeId) : (base.withNodes nodes order).builder.draft.Owns y where
  targets target member := by
    obtain ⟨own, a, found⟩ := refers.targets target member
    obtain ⟨⟨i, placed⟩, stored, rfl⟩ := Option.map_eq_some_iff.mp (existing a _ found)
    exact ⟨own, placed, stored⟩
  uses := refers.uses
  defines := refers.defines

/-- Nodes of lines in order: those of instructions from `n` on, and the labels of addresses. -/
def retraced (labels : Std.HashMap Nat Nat) (n : Nat) : List Line → List NodeId
  | [] => []
  | line :: lines => (labels[line.1]?).toList ++ n :: retraced labels (n + 1) lines

/-- Line by line, labels are placed and instructions put behind the nodes that are there. -/
theorem run_scripted {steps : List (Nat × Op (Handle Label) (Handle Local))} {lines : List Line}
    (tells : List.Forall₂ (Tells base labels) steps lines) (bound : LabelsBound base labels b)
    (unique : ∀ a a' n : Nat, labels[a]? = some n → labels[a']? = some n → a = a')
    (refers : ∀ line ∈ lines, Refers base labels line.2) (apart : (lines.map (·.1)).Nodup)
    (existing : ∀ a n : Nat, labels[a]? = some n → (nodes[n]?).map (·.instruction) = some .label)
    (free : ∀ line ∈ lines, ∀ n : Nat, labels[line.1]? = some n →
      nodes[n]? = some ⟨.label, false⟩) :
    ∃ nodes' order',
      (nodes'.map (·.instruction)).toList =
        (nodes.map (·.instruction)).toList ++ lines.map (·.2) ∧
      (∀ a n : Nat, labels[a]? = some n → a ∉ lines.map (·.1) → nodes'[n]? = nodes[n]?) ∧
      order'.toList = order.toList ++ retraced labels nodes.size lines ∧
      ∀ more, run b (scripted labels steps ++ more) (base.withNodes nodes order) =
        run b more (base.withNodes nodes' order') := by
  induction tells generalizing nodes order with
  | nil => exact ⟨nodes, order, by simp, fun _ _ _ _ => rfl, by simp [retraced], fun _ => rfl⟩
  | @cons step line steps lines first _ ih =>
      obtain ⟨address, redoes⟩ := first
      rw [List.forall_mem_cons] at refers free
      rw [List.map_cons, List.nodup_cons] at apart
      obtain ⟨nodes₁, order₁, instructions, others, placed, ran⟩ :=
        run_placing bound free.1 order
      have size : nodes₁.size = nodes.size := by
        have both := congrArg Array.size instructions
        rwa [Array.size_map, Array.size_map] at both
      have existing₁ : ∀ a n : Nat, labels[a]? = some n →
          (nodes₁[n]?).map (·.instruction) = some .label := by
        intro a n found
        rw [← Array.getElem?_map, instructions, Array.getElem?_map]
        exact existing a n found
      have kept : ∀ a n : Nat, labels[a]? = some n →
          (nodes₁.push ⟨line.2, true⟩)[n]? = nodes₁[n]? := by
        intro a n found
        obtain ⟨node, stored, -⟩ := Option.map_eq_some_iff.mp (existing₁ a n found)
        obtain ⟨inside, -⟩ := Array.getElem?_eq_some_iff.mp stored
        rw [Array.getElem?_push, if_neg (Nat.ne_of_lt inside)]
      obtain ⟨nodes', order', later, others', placed', ran'⟩ :=
        @ih (nodes₁.push ⟨line.2, true⟩) (order₁.push nodes₁.size) refers.2 apart.2
          (fun a n found => by rw [kept a n found]; exact existing₁ a n found)
          (by
            intro line' member n found
            have other : labels[line.1]? ≠ some n := by
              intro same
              have addresses := unique line.1 line'.1 n same found
              exact apart.1 (addresses ▸ List.mem_map_of_mem member)
            rw [kept _ n found, others n other]
            exact free.2 line' member n found)
      refine ⟨nodes', order', ?_, ?_, ?_, fun more => ?_⟩
      · rw [later, Array.map_push, instructions, Array.toList_push, List.append_assoc,
          List.map_cons, List.singleton_append]
      · intro a n found absent
        rw [List.map_cons, List.mem_cons, not_or] at absent
        have other : labels[line.1]? ≠ some n := fun same =>
          absent.1 (unique a line.1 n found same)
        rw [others' a n found absent.2, kept a n found, others n other]
      · rw [placed', Array.toList_push, placed, Array.size_push, size, retraced]
        simp
      · rw [scripted_cons, address, List.append_assoc, List.append_assoc, ran,
          List.singleton_append, run_redone bound redoes (refers.1.owns existing₁ order₁), ran']

end Runs

/-- The script of a listing without handlers and line numbers: it makes the labels, and is complete
if each instruction can be made again. -/
theorem listing_eq_ok (base : Workspace) (table : Pool.IndexTable) {body : Body}
    (owner : body.className = base.builder.owner.text) (bare : body.handlers = [])
    (unlined : body.lines = []) (short : body.code.length ≤ 65535) (l : Listing)
    (slots : SlotMap Local) :
    ∃ s : Script Label Local, Labelled s ∧ s.slots = slots ∧
      (∀ a, a ∈ s.labels ↔ ∃ x ∈ l.instructions, a ∈ x.instruction.targets) ∧
      ∀ lines : List Line, List.Forall₂ (fun x line => x.start = line.1 ∧
          ∀ ops, Redone base table l.returnSlots { s with ops } x.instruction line.2)
        l.instructions lines →
      ∃ steps, List.Forall₂ (Tells base s.labels) steps lines ∧
        listing ⟨base.pool, table⟩ body none l ⟨#[], #[], ∅, slots, 0⟩ =
          (.ok (), { s with ops := s.ops ++
            (scripted s.labels steps ++ placing s.labels body.code.length).toArray }) := by
  have start : Labelled (⟨#[], #[], ∅, slots, 0⟩ : Script Label Local) :=
    ⟨rfl, fun a n => by simp⟩
  obtain ⟨s, made, labelled, kept, new⟩ := adds_targets l.instructions _ start
  refine ⟨s, labelled, kept, fun a => (new a).trans (by simp), fun lines redone => ?_⟩
  obtain ⟨steps, tells, ran⟩ :=
    instructions_eq_ok (fun a => Std.HashMap.getD_empty) redone s.ops
  refine ⟨steps, tells, run_bind_eq_ok.mpr ⟨(), s, made, ?_⟩⟩
  rw [bare, unlined, owner]
  refine run_bind_eq_ok.mpr ⟨(), s, rfl, run_bind_eq_ok.mpr ⟨(), _, ran, ?_⟩⟩
  rw [addressOf_of_le short, place_eq]
  simp

end Emit

/-- Every target is the start of an instruction or the end of the code. -/
theorem Listing.strayTargets_eq_nil {l : Listing} {size : Nat} {addresses : List Nat}
    (starts : ∀ a ∈ addresses, a = size ∨ ∃ x ∈ l.instructions, x.start = a) :
    l.strayTargets size addresses = [] := by
  have contains : ∀ (xs : List Listed) (set : Std.HashSet Nat) (a : Nat),
      (xs.foldl (fun s i => s.insert i.start) set).contains a = true ↔
        set.contains a = true ∨ ∃ x ∈ xs, x.start = a := by
    intro xs
    induction xs with
    | nil => simp
    | cons x xs ih =>
        intro set a
        rw [List.foldl_cons, ih, Std.HashSet.contains_insert, List.exists_mem_cons_iff,
          Bool.or_eq_true, beq_iff_eq, or_comm (a := x.start = a), or_assoc]
  unfold strayTargets
  rw [List.filter_eq_nil_iff]
  intro a member
  rw [Bool.not_eq_true', Bool.not_eq_false, contains]
  rcases starts a member with rfl | started
  · exact .inl (by simp)
  · exact .inr started

namespace Emit

open Writing

/-- From no nodes at all, a script makes its labels, then its lines, and the label at the end. -/
theorem run_whole (base : Workspace) {s : Script Label Local} (labelled : Labelled s)
    {steps : List (Nat × Op (Handle Label) (Handle Local))} {lines : List Line} {stop : Nat}
    (tells : List.Forall₂ (Tells base s.labels) steps lines)
    (refers : ∀ line ∈ lines, Refers base s.labels line.2)
    (apart : (lines.map (·.1)).Nodup) (absent : stop ∉ lines.map (·.1)) :
    ∃ nodes order,
      run .empty (s.ops.toList ++ (scripted s.labels steps ++ placing s.labels stop))
          (base.withNodes #[] #[]) = (.ok (), base.withNodes nodes order) ∧
        (nodes.map (·.instruction)).toList =
          List.replicate s.addresses.size .label ++ lines.map (·.2) ∧
        order.toList =
          retraced s.labels s.addresses.size lines ++ (s.labels[stop]?).toList := by
  have inside : ∀ a n : Nat, s.labels[a]? = some n → n < s.addresses.size := by
    intro a n found
    rw [labelled.labels] at found
    exact (Array.getElem?_eq_some_iff.mp found).1
  have fresh : ∀ a n : Nat, s.labels[a]? = some n →
      (#[] ++ Array.replicate s.addresses.size (⟨.label, false⟩ : Node))[n]? =
        some ⟨.label, false⟩ := by
    intro a n found
    rw [Array.empty_append, Array.getElem?_replicate, if_pos (inside a n found)]
  have bound : LabelsBound base s.labels ⟨#[] ++ ((List.range s.addresses.size).map fun i =>
      (⟨base.builder.draft.id, (#[] : Array Node).size + i⟩ : Label)).toArray, #[]⟩ := by
    intro a n found
    simp [List.getElem?_range (inside a n found)]
  obtain ⟨nodes₁, order₁, lined, others, placed, ran⟩ :=
    @run_scripted base s.labels _ _ #[] steps lines tells bound
      (fun a a' n => labelled.unique) refers apart
      (fun a n found => by rw [fresh a n found]; rfl)
      (fun line _ n found => fresh line.1 n found)
  obtain ⟨nodes₂, order₂, same, -, last, ran'⟩ := @run_placing base s.labels _ nodes₁ bound stop
    (fun n found => (others stop n found absent).trans (fresh stop n found)) order₁
  refine ⟨nodes₂, order₂, ?_, ?_, ?_⟩
  · rw [labelled.ops, run_createLabels]
    have finished := ran' []
    rw [List.append_nil] at finished
    exact (ran _).trans finished
  · rw [same, lined]
    simp
  · rw [last, placed]
    simp

/-- Copying a body into a builder without nodes puts in the labels of its targets and its lines. -/
theorem copyInto_eq {base : Workspace} (fresh : base.withNodes #[] #[] = base) {body : Body}
    (table : Pool.IndexTable) (owner : body.className = base.builder.owner.text)
    (bare : body.handlers = []) (unlined : body.lines = []) (short : body.code.length ≤ 65535)
    (reported : (Listing.decode body.code).reports = []) {types : List FieldType}
    {slots : SlotMap Local} (typed : body.argumentTypes = .ok types)
    (counted : types.length = base.builder.arguments.length)
    (bound : SlotMap.bind (fun v => (·.type) <$> base.builder.draft.localInfo v) 0 ∅ types
      base.builder.arguments = .ok slots) :
    ∃ s : Script Label Local, Labelled s ∧ s.slots = slots ∧
      (∀ a, a ∈ s.labels ↔
        ∃ x ∈ (Listing.decode body.code).instructions, a ∈ x.instruction.targets) ∧
      ∀ lines : List Line, List.Forall₂ (fun x line => x.start = line.1 ∧
          ∀ ops, Redone base table (Listing.decode body.code).returnSlots { s with ops }
            x.instruction line.2) (Listing.decode body.code).instructions lines →
        (∀ line ∈ lines, Refers base s.labels line.2) →
        (lines.map (·.1)).Nodup → body.code.length ∉ lines.map (·.1) →
        (∀ a ∈ s.labels, a = body.code.length ∨
          ∃ x ∈ (Listing.decode body.code).instructions, x.start = a) →
      ∃ nodes order, body.copyInto table none none base =
          (⟨none, [], []⟩, base.withNodes nodes order) ∧
        (nodes.map (·.instruction)).toList =
          List.replicate s.addresses.size .label ++ lines.map (·.2) ∧
        order.toList = retraced s.labels s.addresses.size lines ++
          (s.labels[body.code.length]?).toList := by
  obtain ⟨s, labelled, kept, targets, complete⟩ :=
    listing_eq_ok base table owner bare unlined short (Listing.decode body.code) slots
  refine ⟨s, labelled, kept, targets, fun lines redone refers apart absent known => ?_⟩
  obtain ⟨steps, tells, written⟩ := complete lines redone
  obtain ⟨nodes, order, ran, instructions, placed⟩ :=
    run_whole base labelled tells refers apart absent
  have stray : (Listing.decode body.code).strayTargets body.code.length s.addresses.toList =
      [] := by
    refine Listing.strayTargets_eq_nil fun a member => ?_
    obtain ⟨n, found⟩ := List.mem_iff_getElem?.mp member
    rw [Array.getElem?_toList, ← labelled.labels] at found
    exact known a (Std.HashMap.mem_iff_isSome_getElem?.mpr (by rw [found]; rfl))
  refine ⟨nodes, order, ?_, instructions, placed⟩
  have script : body.disassemble ⟨base.pool, table⟩
      (fun v => (·.type) <$> base.builder.draft.localInfo v) base.builder.arguments none =
      ⟨s.ops.toList ++ (scripted s.labels steps ++ placing s.labels body.code.length), none, [],
        []⟩ := by
    unfold Body.disassemble
    simp only [typed, counted, bound, ne_eq, not_true_eq_false, if_false, written, reported,
      addressOf_of_le short, stray, Array.toList_append]
  unfold Body.copyInto
  rw [fresh] at ran
  simp only [Option.getD_none, script, ran]

end Emit

end JvmAssembly
