import Mathlib
import JvmAssembly.Draft.Flow
import JvmAssembly.Proofs.Draft.Validity

/-!
Control flow of a draft, told by its instructions and labels, and the tables of the analyses as
another way to write it down. Positions count the placed nodes from zero.
-/
namespace JvmAssembly.Draft

/-- The instruction at a position. -/
def at? (d : Draft) (i : Nat) : Option Instruction :=
  (d.order.toList[i]?).map d.instructionAt

def PlacedAt (d : Draft) (label : Label) (i : Nat) : Prop :=
  label.draft = d.id ∧ d.order.toList[i]? = some label.node

/-- Control may go from one position to the other without an exception. A return from a
subroutine may go behind any call. -/
inductive Edge (d : Draft) (i : Nat) : Nat → Prop
  | next {x : Instruction} (here : d.at? i = some x) (falls : x.fallsThrough = true)
      (inside : i + 1 < d.order.toList.length) : Edge d i (i + 1)
  | jump {x : Instruction} {label : Label} {j : Nat} (here : d.at? i = some x)
      (member : label ∈ x.targets) (there : d.PlacedAt label j) : Edge d i j
  | ret {v : Local} {k : Nat} {call : Instruction} (here : d.at? i = some (.ret v))
      (there : d.at? k = some call) (calls : call.isSubroutineCall = true)
      (inside : k + 1 < d.order.toList.length) : Edge d i (k + 1)

/-- An exception at the first position may be caught by a handler with its entry at the second. -/
def Throws (d : Draft) (i j : Nat) : Prop :=
  ∃ h ∈ d.handlers, ∃ start stop, d.PlacedAt h.start start ∧ d.PlacedAt h.stop stop ∧
    start ≤ i ∧ i < stop ∧ d.PlacedAt h.entry j

/-- Every label that a placed instruction or a handler refers to has a place. -/
structure LabelsPlaced (d : Draft) : Prop where
  targets : ∀ n ∈ d.order.toList, ∀ label ∈ (d.instructionAt n).targets, d.isPlaced label = true
  handlers : ∀ h ∈ d.handlers, d.isPlaced h.start = true ∧ d.isPlaced h.stop = true ∧
    d.isPlaced h.entry = true

section Positions

/-- Positions of a stretch of the sequence that begins at position `i`. -/
def numberFrom (table : Array (Option Nat)) (i : Nat) : List NodeId → Array (Option Nat)
  | [] => table
  | node :: rest => numberFrom (table.setIfInBounds node (some i)) (i + 1) rest

theorem positions_eq (d : Draft) :
    d.positions = numberFrom (Array.replicate d.nodes.size none) 0 d.order.toList := by
  have fold : ∀ (rest : List NodeId) (table : Array (Option Nat)) (i : Nat),
      (rest.foldl (fun (s : Array (Option Nat) × Nat) node =>
        (s.1.setIfInBounds node (some s.2), s.2 + 1)) (table, i)).1 = numberFrom table i rest := by
    intro rest
    induction rest with
    | nil => intro table i; rfl
    | cons node rest ih => intro table i; exact ih _ _
  rw [← fold, positions, ← Array.foldl_toList]

theorem numberFrom_of_not_mem {rest : List NodeId} {n : NodeId} (absent : n ∉ rest)
    (table : Array (Option Nat)) (i : Nat) : (numberFrom table i rest)[n]? = table[n]? := by
  induction rest generalizing table i with
  | nil => rfl
  | cons node rest ih =>
      rw [List.mem_cons, not_or] at absent
      rw [numberFrom, ih absent.2, Array.getElem?_setIfInBounds_ne (Ne.symm absent.1)]

theorem numberFrom_of_getElem? {rest : List NodeId} (nodup : rest.Nodup) {k : Nat} {n : NodeId}
    (found : rest[k]? = some n) {table : Array (Option Nat)} (inside : n < table.size) (i : Nat) :
    (numberFrom table i rest)[n]? = some (some (i + k)) := by
  induction rest generalizing table i k with
  | nil => simp at found
  | cons node rest ih =>
      rw [List.nodup_cons] at nodup
      cases k with
      | zero =>
          rw [List.getElem?_cons_zero, Option.some.injEq] at found
          subst found
          rw [numberFrom, numberFrom_of_not_mem nodup.1, Nat.add_zero,
            Array.getElem?_setIfInBounds_self_of_lt inside]
      | succ k =>
          rw [List.getElem?_cons_succ] at found
          rw [numberFrom, ih nodup.2 found (by simpa using inside), Nat.add_right_comm,
            Nat.add_assoc]

/-- The table of positions knows exactly the placed nodes. -/
theorem positions_getElem? {d : Draft} (valid : d.Valid) {n i : Nat} :
    d.positions[n]? = some (some i) ↔ d.order.toList[i]? = some n := by
  rw [positions_eq]
  constructor
  · intro found
    by_cases member : n ∈ d.order.toList
    · obtain ⟨k, stored⟩ := List.mem_iff_getElem?.mp member
      rw [numberFrom_of_getElem? valid.nodup stored (by simpa using valid.inside member),
        Nat.zero_add] at found
      cases found
      exact stored
    · rw [numberFrom_of_not_mem member, Array.getElem?_replicate] at found
      split at found <;> cases found
  · intro stored
    have member := List.mem_of_getElem? stored
    rw [numberFrom_of_getElem? valid.nodup stored (by simpa using valid.inside member),
      Nat.zero_add]

theorem positionOf_eq_ok {d : Draft} (valid : d.Valid) {label : Label} {i : Nat} :
    d.positionOf d.positions label = .ok i ↔ d.PlacedAt label i := by
  unfold positionOf PlacedAt
  rw [← positions_getElem? valid]
  split
  · rename_i k found
    rw [found]
    split
    · rename_i same
      simp [same]
    · rename_i foreign
      simp [foreign]
  · rename_i other
    constructor
    · intro h
      cases h
    · rintro ⟨-, found⟩
      exact absurd found (other i)

theorem isPlaced_eq_true {d : Draft} (valid : d.Valid) {label : Label} :
    d.isPlaced label = true ↔ ∃ i, d.PlacedAt label i := by
  unfold isPlaced PlacedAt
  rw [Bool.and_eq_true, beq_iff_eq, ← valid.placed, List.mem_iff_getElem?]
  exact ⟨fun ⟨same, i, found⟩ => ⟨i, same, found⟩, fun ⟨i, same, found⟩ => ⟨same, i, found⟩⟩

end Positions

section Tables

variable {d : Draft} {f : Flow}

/-- The point tells of the instruction what analyses ask about it. -/
structure Describes (d : Draft) (x : Instruction) (p : Point) : Prop where
  uses : p.uses = x.uses.map (·.index)
  defines : p.defines = x.defines.map (·.index)
  adjustment : p.adjustment = x.adjustment
  fallsThrough : p.fallsThrough = x.fallsThrough
  targets : List.Forall₂ d.PlacedAt x.targets p.targets
  isCall : p.isCall = x.isSubroutineCall
  isRet : p.isRet = true ↔ ∃ v, x = .ret v

theorem describes_of_pointOf (valid : d.Valid) {n : NodeId} {p : Point}
    (h : d.pointOf d.positions n = .ok p) : d.Describes (d.instructionAt n) p := by
  unfold pointOf at h
  dsimp only at h
  split at h
  · cases h
  · rename_i targets found
    cases h
    refine ⟨rfl, rfl, rfl, rfl, ?_, rfl, ?_⟩
    · exact (mapM_eq_ok.mp found).imp fun _ _ => (positionOf_eq_ok valid).mp
    · cases d.instructionAt n <;> simp

theorem exists_pointOf (valid : d.Valid) (placed : d.LabelsPlaced) {n : NodeId}
    (member : n ∈ d.order.toList) : ∃ p, d.pointOf d.positions n = .ok p := by
  have known : ∀ label ∈ (d.instructionAt n).targets,
      ∃ i, d.positionOf d.positions label = .ok i := by
    intro label target
    obtain ⟨i, there⟩ := (isPlaced_eq_true valid).mp (placed.targets n member label target)
    exact ⟨i, (positionOf_eq_ok valid).mpr there⟩
  obtain ⟨targets, found⟩ := exists_mapM_eq_ok known
  unfold pointOf
  dsimp only
  rw [found]
  exact ⟨_, rfl⟩

theorem guardOf_eq_ok (valid : d.Valid) {h : Handler} {g : Guard} :
    d.guardOf d.positions h = .ok g ↔
      d.PlacedAt h.start g.start ∧ d.PlacedAt h.stop g.stop ∧ d.PlacedAt h.entry g.entry := by
  unfold guardOf
  simp only [bind_eq_ok, positionOf_eq_ok valid]
  constructor
  · rintro ⟨start, hstart, stop, hstop, entry, hentry, same⟩
    cases same
    exact ⟨hstart, hstop, hentry⟩
  · rintro ⟨hstart, hstop, hentry⟩
    exact ⟨_, hstart, _, hstop, _, hentry, rfl⟩

theorem flow_eq_ok : d.flow = .ok f ↔
    List.Forall₂ (fun n p => d.pointOf d.positions n = .ok p) d.order.toList f.points.toList ∧
      List.Forall₂ (fun h g => d.guardOf d.positions h = .ok g) d.handlers.toList f.guards := by
  obtain ⟨points, guards⟩ := f
  unfold flow
  simp only [bind_eq_ok, mapM_eq_ok]
  constructor
  · rintro ⟨ps, hps, gs, hgs, same⟩
    cases same
    exact ⟨hps, hgs⟩
  · rintro ⟨hps, hgs⟩
    exact ⟨_, hps, _, hgs, rfl⟩

/-- A draft whose labels have places can be analysed. -/
theorem exists_flow (valid : d.Valid) (placed : d.LabelsPlaced) : ∃ f, d.flow = .ok f := by
  obtain ⟨points, hpoints⟩ := exists_mapM_eq_ok fun n member => exists_pointOf valid placed member
  have guarded : ∀ h ∈ d.handlers.toList, ∃ g, d.guardOf d.positions h = .ok g := by
    intro h member
    obtain ⟨hstart, hstop, hentry⟩ := placed.handlers h (Array.mem_toList_iff.mp member)
    obtain ⟨start, hstart⟩ := (isPlaced_eq_true valid).mp hstart
    obtain ⟨stop, hstop⟩ := (isPlaced_eq_true valid).mp hstop
    obtain ⟨entry, hentry⟩ := (isPlaced_eq_true valid).mp hentry
    exact ⟨⟨start, stop, entry⟩, (guardOf_eq_ok valid).mpr ⟨hstart, hstop, hentry⟩⟩
  obtain ⟨guards, hguards⟩ := exists_mapM_eq_ok guarded
  exact ⟨⟨points.toArray, guards⟩, flow_eq_ok.mpr ⟨mapM_eq_ok.mp hpoints, mapM_eq_ok.mp hguards⟩⟩

theorem size_flow (h : d.flow = .ok f) : f.size = d.order.toList.length := by
  rw [Flow.size, ← Array.length_toList, (flow_eq_ok.mp h).1.length_eq]

/-- The point of a position describes the instruction there. -/
theorem flow_point (valid : d.Valid) (h : d.flow = .ok f) {i : Nat} {x : Instruction}
    (here : d.at? i = some x) : ∃ p, f.points[i]? = some p ∧ d.Describes x p := by
  obtain ⟨n, stored, rfl⟩ := Option.map_eq_some_iff.mp here
  have rows := (flow_eq_ok.mp h).1
  have inside : i < f.points.size := by
    rw [← Array.length_toList, ← rows.length_eq]
    exact (List.getElem?_eq_some_iff.mp stored).1
  have described := rows.get (List.getElem?_eq_some_iff.mp stored).1 inside
  rw [List.get_eq_getElem, (List.getElem?_eq_some_iff.mp stored).2] at described
  exact ⟨f.points[i], Array.getElem?_eq_getElem inside, describes_of_pointOf valid described⟩

/-- Every point describes an instruction. -/
theorem flow_instruction (valid : d.Valid) (h : d.flow = .ok f) {i : Nat} {p : Point}
    (found : f.points[i]? = some p) : ∃ x, d.at? i = some x ∧ d.Describes x p := by
  have inside : i < d.order.toList.length := by
    rw [← size_flow h]
    exact (Array.getElem?_eq_some_iff.mp found).1
  have here : d.at? i = some (d.instructionAt d.order.toList[i]) := by
    rw [at?, List.getElem?_eq_getElem inside, Option.map_some]
  obtain ⟨q, stored, described⟩ := flow_point valid h here
  rw [found] at stored
  cases stored
  exact ⟨_, here, described⟩

theorem placed_of_flow (valid : d.Valid) (h : d.flow = .ok f) {i : Nat} {x : Instruction}
    (here : d.at? i = some x) {label : Label} (member : label ∈ x.targets) :
    ∃ j, d.PlacedAt label j := by
  obtain ⟨p, -, described⟩ := flow_point valid h here
  obtain ⟨k, inside, rfl⟩ := List.getElem_of_mem member
  exact ⟨_, described.targets.get inside (described.targets.length_eq ▸ inside)⟩

/-- Every handler has its guard. -/
theorem guard_of_handler (valid : d.Valid) (h : d.flow = .ok f) {handler : Handler}
    (member : handler ∈ d.handlers) : ∃ g ∈ f.guards, d.PlacedAt handler.start g.start ∧
      d.PlacedAt handler.stop g.stop ∧ d.PlacedAt handler.entry g.entry := by
  obtain ⟨k, stored⟩ := List.mem_iff_get.mp (Array.mem_toList_iff.mpr member)
  have rows := (flow_eq_ok.mp h).2
  have bound : k.val < f.guards.length := rows.length_eq ▸ k.isLt
  have found := rows.get k.isLt bound
  rw [stored, guardOf_eq_ok valid] at found
  exact ⟨_, List.get_mem f.guards ⟨k.val, bound⟩, found⟩

/-- Every guard comes from a handler. -/
theorem handler_of_guard (valid : d.Valid) (h : d.flow = .ok f) {g : Guard}
    (member : g ∈ f.guards) : ∃ handler ∈ d.handlers, d.PlacedAt handler.start g.start ∧
      d.PlacedAt handler.stop g.stop ∧ d.PlacedAt handler.entry g.entry := by
  obtain ⟨k, inside, rfl⟩ := List.getElem_of_mem member
  have rows := (flow_eq_ok.mp h).2
  have bound : k < d.handlers.toList.length := rows.length_eq ▸ inside
  exact ⟨_, Array.mem_toList_iff.mp (List.get_mem _ ⟨k, bound⟩),
    (guardOf_eq_ok valid).mp (rows.get bound inside)⟩

/-- Jumps of a draft that can be analysed lead to nodes of its sequence. -/
theorem target_mem_order (valid : d.Valid) (h : d.flow = .ok f) {n : NodeId}
    (member : n ∈ d.order.toList) {label : Label} (target : label ∈ (d.instructionAt n).targets) :
    label.node ∈ d.order.toList := by
  obtain ⟨i, found⟩ := List.mem_iff_getElem?.mp member
  obtain ⟨j, placed⟩ := placed_of_flow valid h
    (Option.map_eq_some_iff.mpr ⟨n, found, rfl⟩ : d.at? i = _) target
  exact List.mem_of_getElem? placed.2

theorem PlacedAt.unique {label : Label} {i j : Nat} (valid : d.Valid) (hi : d.PlacedAt label i)
    (hj : d.PlacedAt label j) : i = j := by
  have found := (positions_getElem? valid).mpr hi.2
  rw [(positions_getElem? valid).mpr hj.2] at found
  cases found
  rfl

theorem Describes.mem_targets (valid : d.Valid) {x : Instruction} {p : Point} {label : Label}
    {j : Nat} (described : d.Describes x p) (member : label ∈ x.targets)
    (there : d.PlacedAt label j) : j ∈ p.targets := by
  obtain ⟨k, stored⟩ := List.mem_iff_get.mp member
  have bound : k.val < p.targets.length := described.targets.length_eq ▸ k.isLt
  have found := described.targets.get k.isLt bound
  rw [stored] at found
  rw [there.unique valid found]
  exact List.get_mem p.targets ⟨k.val, bound⟩

/-- The tables have every step that control may take. -/
theorem Edge.mem_successors (valid : d.Valid) (h : d.flow = .ok f) {i j : Nat}
    (edge : d.Edge i j) : j ∈ f.successors f.returnPoints i := by
  unfold Flow.successors
  cases edge with
  | next here falls inside =>
      obtain ⟨p, found, described⟩ := flow_point valid h here
      simp only [found, described.fallsThrough, falls, size_flow h, inside, decide_true,
        Bool.and_self, if_true]
      simp
  | jump here member there =>
      obtain ⟨p, found, described⟩ := flow_point valid h here
      simp only [found]
      exact List.mem_append_left _
        (List.mem_append_right _ (described.mem_targets valid member there))
  | ret here there calls inside =>
      rename_i v k call
      obtain ⟨p, found, described⟩ := flow_point valid h here
      obtain ⟨q, before, caller⟩ := flow_point valid h there
      simp only [found, described.isRet.mpr ⟨v, rfl⟩, if_true]
      apply List.mem_append_right
      rw [Flow.returnPoints, List.mem_filter, List.mem_range, size_flow h]
      refine ⟨inside, ?_⟩
      simp [before, caller.isCall, calls]

theorem Describes.of_mem_targets {x : Instruction} {p : Point} {j : Nat}
    (described : d.Describes x p) (member : j ∈ p.targets) :
    ∃ label ∈ x.targets, d.PlacedAt label j := by
  obtain ⟨k, inside, rfl⟩ := List.getElem_of_mem member
  have bound : k < x.targets.length := described.targets.length_eq ▸ inside
  exact ⟨_, List.get_mem x.targets ⟨k, bound⟩, described.targets.get bound inside⟩

/-- The tables have no step that control may not take. -/
theorem edge_of_mem_successors (valid : d.Valid) (h : d.flow = .ok f) {i j : Nat}
    (member : j ∈ f.successors f.returnPoints i) : d.Edge i j := by
  unfold Flow.successors at member
  cases found : f.points[i]? with
  | none =>
      rw [found] at member
      cases member
  | some p =>
      obtain ⟨x, here, described⟩ := flow_instruction valid h found
      simp only [found, List.mem_append] at member
      rcases member with (next | jump) | ret
      · split at next
        · rename_i falls
          rw [Bool.and_eq_true, decide_eq_true_eq, described.fallsThrough, size_flow h] at falls
          cases List.mem_singleton.mp next
          exact .next here falls.1 falls.2
        · cases next
      · obtain ⟨label, target, there⟩ := described.of_mem_targets jump
        exact .jump here target there
      · split at ret
        · rename_i isRet
          obtain ⟨v, rfl⟩ := described.isRet.mp isRet
          rw [Flow.returnPoints, List.mem_filter, List.mem_range, size_flow h, Bool.and_eq_true,
            decide_eq_true_eq] at ret
          obtain ⟨inside, positive, calls⟩ := ret
          obtain ⟨k, rfl⟩ := Nat.exists_eq_succ_of_ne_zero (Nat.ne_of_gt positive)
          obtain ⟨q, before, isCall⟩ := (Option.any_eq_true _ _).mp calls
          obtain ⟨call, there, caller⟩ := flow_instruction valid h before
          exact .ret here there (caller.isCall.symm.trans isCall) inside
        · cases ret

end Tables

end JvmAssembly.Draft

namespace JvmAssembly.Flow

theorem cover_getElem? (entry : Nat) (table : Array (List Nat)) (i n k : Nat) :
    (cover entry table i n)[k]? =
      (table[k]?).map fun entries => if i ≤ k ∧ k < i + n then entry :: entries else entries := by
  induction n generalizing table i with
  | zero =>
      have outside : ¬ (i ≤ k ∧ k < i) := by omega
      simp [cover, outside]
  | succ n ih =>
      rw [cover, ih, Array.getElem?_modify]
      by_cases same : i = k
      · subst same
        have left : ¬ (i + 1 ≤ i ∧ i < i + 1 + n) := by omega
        have right : i ≤ i ∧ i < i + (n + 1) := by omega
        simp only [if_true, left, right, if_false, and_self, Option.map_map]
        rfl
      · have shift : (i + 1 ≤ k ∧ k < i + 1 + n) ↔ (i ≤ k ∧ k < i + (n + 1)) := by omega
        simp only [same, if_false, shift]

theorem mem_cover {entry : Nat} {table : Array (List Nat)} {i n k e : Nat}
    (h : e ∈ table.getD k []) : e ∈ (cover entry table i n).getD k [] := by
  rw [Array.getD_eq_getD_getElem?] at h ⊢
  rw [cover_getElem?]
  cases found : table[k]? with
  | none => simp [found] at h
  | some entries =>
      rw [found, Option.getD_some] at h
      rw [Option.map_some, Option.getD_some]
      split
      · exact List.mem_cons_of_mem _ h
      · exact h

theorem mem_cover_self {entry : Nat} {table : Array (List Nat)} {i n k : Nat}
    (low : i ≤ k) (high : k < i + n) (inside : k < table.size) :
    entry ∈ (cover entry table i n).getD k [] := by
  rw [Array.getD_eq_getD_getElem?, cover_getElem?, Array.getElem?_eq_getElem inside,
    Option.map_some, Option.getD_some, if_pos ⟨low, high⟩]
  exact List.mem_cons_self ..

theorem of_mem_cover {entry : Nat} {table : Array (List Nat)} {i n k e : Nat}
    (h : e ∈ (cover entry table i n).getD k []) :
    e ∈ table.getD k [] ∨ i ≤ k ∧ k < i + n ∧ e = entry := by
  rw [Array.getD_eq_getD_getElem?, cover_getElem?] at h
  rw [Array.getD_eq_getD_getElem?]
  cases found : table[k]? with
  | none => simp [found] at h
  | some entries =>
      rw [found, Option.map_some, Option.getD_some] at h
      split at h
      · rename_i covered
        rcases List.mem_cons.mp h with same | old
        · exact .inr ⟨covered.1, covered.2, same⟩
        · exact .inl old
      · exact .inl h

theorem size_cover (entry : Nat) (table : Array (List Nat)) (i n : Nat) :
    (cover entry table i n).size = table.size := by
  induction n generalizing table i with
  | zero => rfl
  | succ n ih => rw [cover, ih, Array.size_modify]

theorem mem_foldl_cover {guards : List Guard} {table : Array (List Nat)} {k e : Nat}
    (inside : k < table.size)
    (h : e ∈ table.getD k [] ∨ ∃ g ∈ guards, g.start ≤ k ∧ k < g.stop ∧ g.entry = e) :
    e ∈ (guards.foldl (fun table g => cover g.entry table g.start (g.stop - g.start)) table).getD
      k [] := by
  induction guards generalizing table with
  | nil =>
      rcases h with old | ⟨g, member, -⟩
      · exact old
      · simp at member
  | cons g guards ih =>
      rw [List.foldl_cons]
      apply ih (by rw [size_cover]; exact inside)
      rcases h with old | ⟨g', member, low, high, rfl⟩
      · exact .inl (mem_cover old)
      · rcases List.mem_cons.mp member with rfl | later
        · exact .inl (mem_cover_self low (by omega) inside)
        · exact .inr ⟨g', later, low, high, rfl⟩

theorem of_mem_foldl_cover {guards : List Guard} {table : Array (List Nat)} {k e : Nat}
    (h : e ∈ (guards.foldl (fun table g => cover g.entry table g.start (g.stop - g.start))
      table).getD k []) :
    e ∈ table.getD k [] ∨ ∃ g ∈ guards, g.start ≤ k ∧ k < g.stop ∧ g.entry = e := by
  induction guards generalizing table with
  | nil => exact .inl h
  | cons g guards ih =>
      rw [List.foldl_cons] at h
      rcases ih h with before | ⟨g', member, guarded⟩
      · rcases of_mem_cover before with old | ⟨low, high, same⟩
        · exact .inl old
        · exact .inr ⟨g, List.mem_cons_self .., low, by omega, same.symm⟩
      · exact .inr ⟨g', List.mem_cons_of_mem _ member, guarded⟩

end JvmAssembly.Flow

namespace JvmAssembly.Draft

/-- The tables have no step that an exception may not take. -/
theorem throws_of_mem_handlerEntries {d : Draft} {f : Flow} (valid : d.Valid)
    (h : d.flow = .ok f) {i j : Nat} (member : j ∈ f.handlerEntries.getD i []) :
    d.Throws i j := by
  rcases Flow.of_mem_foldl_cover member with none | ⟨g, found, low, high, rfl⟩
  · rw [Array.getD_eq_getD_getElem?, Array.getElem?_replicate] at none
    split at none <;> cases none
  · obtain ⟨handler, stored, start, stop, entry⟩ := handler_of_guard valid h found
    exact ⟨handler, stored, _, _, start, stop, low, high, entry⟩

/-- The tables have every step that an exception may take. -/
theorem Throws.mem_handlerEntries {d : Draft} {f : Flow} (valid : d.Valid) (h : d.flow = .ok f)
    {i j : Nat} (inside : i < d.order.toList.length) (throws : d.Throws i j) :
    j ∈ f.handlerEntries.getD i [] := by
  obtain ⟨handler, member, start, stop, hstart, hstop, low, high, hentry⟩ := throws
  obtain ⟨g, found, placed⟩ := guard_of_handler valid h member
  apply Flow.mem_foldl_cover
  · rw [Array.size_replicate, size_flow h]
    exact inside
  · refine .inr ⟨g, found, ?_, ?_, ?_⟩
    · rw [placed.1.unique valid hstart]
      exact low
    · rw [placed.2.1.unique valid hstop]
      exact high
    · exact placed.2.2.unique valid hentry

end JvmAssembly.Draft
