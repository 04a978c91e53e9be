import Mathlib
import JvmAssembly.Proofs.Disassembly.SlotUse
import JvmAssembly.Proofs.Outcome

/-!
The operations on locals in a script. They are those of the instructions on locals, in the order of
the code, each with the local that its slot stands for at that point.
-/
namespace JvmAssembly

variable {lab loc : Type}

/-- The local that an operation works on. -/
def Op.local? : Op lab loc → Option loc
  | .loadLocal v => some v
  | .storeLocal v => some v
  | .increment v _ => some v
  | .ret v => some v
  | _ => none

/-- The slot that an operation fixes for a new local. -/
def Op.pinned? : Op lab loc → Option UInt16
  | .createLocalAt _ _ slot => some slot
  | _ => none

/-- An operation that neither works on a local nor declares one. -/
def Op.sparesLocals : Op lab loc → Bool
  | .createLocal .. | .createLocalAt .. => false
  | op => op.local?.isNone

theorem Op.local?_of_spares {op : Op lab loc} (h : op.sparesLocals = true) : op.local? = none := by
  cases op <;> first | rfl | cases h

theorem Op.pinned?_of_spares {op : Op lab loc} (h : op.sparesLocals = true) :
    op.pinned? = none := by
  cases op <;> first | rfl | cases h

theorem Op.sparesLocals_ite {c : Prop} [Decidable c] {a b : Op lab loc}
    (ha : a.sparesLocals = true) (hb : b.sparesLocals = true) :
    (if c then a else b).sparesLocals = true := by
  split <;> assumption

def Op.onLocals (ops : List (Op lab loc)) : List (Op lab loc) := ops.filter (·.local?.isSome)

def Listing.body (l : Listing) : List Decoded := l.instructions.map (·.instruction)

/-- The operation of an instruction on a local. -/
def Decoded.operation : Decoded → Handle loc → Op (Handle lab) (Handle loc)
  | .access _ _ true, v => .storeLocal v
  | .access _ _ false, v => .loadLocal v
  | .increment _ amount, v => .increment v amount
  | .ret _, v => .ret v
  | _, _ => .nop

theorem Decoded.local?_operation {x : Decoded} {use : UInt16 × LocalKind}
    (touched : x.touched? = some use) (v : Handle loc) :
    (x.operation v : Op (Handle lab) (Handle loc)).local? = some v := by
  cases x with
  | access kind slot isStore => cases isStore <;> rfl
  | increment slot amount => rfl
  | ret slot => rfl
  | _ => cases touched

namespace SlotUse

/-- The operations on locals for some instructions. -/
def operations (u : SlotUse loc) : List Decoded → List (Op (Handle lab) (Handle loc))
  | [] => []
  | x :: xs =>
    match x.touched? with
    | some (slot, kind) => x.operation (u.handle slot kind) :: operations (u.use slot kind) xs
    | none => operations u xs

theorem operations_cons (u : SlotUse loc) (x : Decoded) (xs : List Decoded) :
    (u.operations (x :: xs) : List (Op (Handle lab) (Handle loc))) =
      u.operations [x] ++ (u.touch x).operations xs := by
  rw [operations, operations, touch]
  cases x.touched? <;> rfl

/-- How many of the instructions are on locals. -/
def count (xs : List Decoded) : Nat := xs.countP (·.touched?.isSome)

theorem operations_getElem? (u : SlotUse loc) {xs : List Decoded} {i : Nat} {x : Decoded}
    {slot : UInt16} {kind : LocalKind} (here : xs[i]? = some x) (touches : x.Touches slot kind) :
    (u.operations xs : List (Op (Handle lab) (Handle loc)))[count (xs.take i)]? =
      some (x.operation ((u.after (xs.take i)).handle slot kind)) := by
  induction xs generalizing u i with
  | nil => cases here
  | cons y ys ih =>
      cases i with
      | zero =>
          cases here
          rw [operations, touches]
          rfl
      | succ i =>
          rw [List.getElem?_cons_succ] at here
          rw [List.take_succ_cons, operations, count, List.countP_cons, after, List.foldl_cons,
            touch]
          cases touched : y.touched? with
          | none => exact ih u here
          | some use => exact ih (u.use use.1 use.2) here

end SlotUse

namespace Script

/-- What the slots of a script stand for. -/
def use (s : Script lab loc) : SlotUse loc := ⟨fun slot => s.slots[slot]?, s.locals⟩

/-- All that matters of a script for its locals. -/
def trace (s : Script lab loc) : SlotUse loc × List (Op (Handle lab) (Handle loc)) :=
  (s.use, Op.onLocals s.ops.toList)

end Script

namespace Writing

variable {α β : Type}

/-- Whatever comes of an action, it takes a script to a related one. -/
def Takes (R : Script lab loc → Script lab loc → Prop) (x : Writing lab loc α) : Prop :=
  ∀ s, R s (x s).2

section Takes

variable {R : Script lab loc → Script lab loc → Prop} [IsPreorder (Script lab loc) R]

theorem takes_pure (a : α) : Takes R (pure a) := fun s => refl_of R s

theorem takes_lift (x : Except Fault α) : Takes R (lift x) := fun s => refl_of R s

theorem Takes.bind {x : Writing lab loc α} {f : α → Writing lab loc β} (first : Takes R x)
    (later : ∀ a, Takes R (f a)) : Takes R (x >>= f) := by
  intro s
  have before := first s
  rw [run_bind]
  split
  · rename_i a s' ran
    rw [ran] at before
    exact trans_of R before (later a s')
  · rename_i fault s' ran
    rw [ran] at before
    exact before

omit [IsPreorder (Script lab loc) R] in
theorem Takes.discard {x : Writing lab loc α} (h : Takes R x) :
    Takes R (discard x : Writing lab loc Unit) := by
  intro s
  rw [run_discard]
  exact h s

theorem takes_forM {xs : List β} {f : β → Writing lab loc Unit} (h : ∀ x ∈ xs, Takes R (f x)) :
    Takes R (xs.forM f) := by
  induction xs with
  | nil => exact takes_pure _
  | cons x xs ih =>
      rw [List.forall_mem_cons] at h
      exact h.1.bind fun _ => ih h.2

theorem takes_mapM {xs : List β} {f : β → Writing lab loc α} (h : ∀ x, Takes R (f x)) :
    Takes R (xs.mapM f) := by
  induction xs with
  | nil => exact takes_pure _
  | cons x xs ih =>
      rw [List.mapM_cons]
      exact (h x).bind fun _ => ih.bind fun _ => takes_pure _

end Takes

section Sparing

theorem sparesLocals_simpleOp (exit : Option lab) (opcode : Opcode) :
    (simpleOp exit opcode : Op (Handle lab) (Handle loc)).sparesLocals = true := by
  unfold simpleOp
  cases shortValue? opcode with
  | some value => rfl
  | none =>
      repeat' apply Op.sparesLocals_ite
      all_goals first
        | rfl
        | split <;> rfl

theorem sparesLocals_memberOp {k : Constants} {className : String} {opcode : Opcode}
    {index : UInt16} {op : Op (Handle lab) (Handle loc)}
    (h : memberOp k className opcode index = .ok op) : op.sparesLocals = true := by
  obtain ⟨m, -, h⟩ := bind_eq_ok.mp h
  dsimp only at h
  split at h
  · obtain ⟨descriptor, -, h⟩ := bind_eq_ok.mp h
    split at h
    · cases h
      rfl
    · obtain ⟨owner, -, h⟩ := bind_eq_ok.mp h
      cases h
      rfl
  · obtain ⟨type, -, h⟩ := bind_eq_ok.mp h
    split at h
    · split at h <;> cases h <;> rfl
    · obtain ⟨owner, -, h⟩ := bind_eq_ok.mp h
      split at h <;> cases h <;> rfl

theorem sparesLocals_classOp {k : Constants} {opcode : Opcode} {index : UInt16}
    {op : Op (Handle lab) (Handle loc)} (h : classOp k opcode index = .ok op) :
    op.sparesLocals = true := by
  obtain ⟨r, -, h⟩ := bind_eq_ok.mp h
  split_ifs at h
  · cases h
    rfl
  · cases h
    rfl
  · cases h
    rfl
  · split at h <;> cases h
    rfl

theorem sparesLocals_branchOp {opcode : Opcode} {target : Handle lab}
    {op : Op (Handle lab) (Handle loc)} (h : branchOp opcode target = .ok op) :
    op.sparesLocals = true := by
  unfold branchOp at h
  cases found : Comparison.ofOpcode? opcode with
  | none =>
      rw [found] at h
      split_ifs at h <;> cases h <;> rfl
  | some c =>
      rw [found] at h
      split_ifs at h <;> cases h <;> rfl

/-- A relation between scripts that allows for anything but locals. -/
class Sparing (R : Script lab loc → Script lab loc → Prop) : Prop
    extends IsPreorder (Script lab loc) R where
  emit : ∀ {op : Op (Handle lab) (Handle loc)}, op.sparesLocals = true → Takes R (emit op)
  labelAt : ∀ address, Takes R (labelAt address)

variable {R : Script lab loc → Script lab loc → Prop} [Sparing R]

theorem takes_place (address : Nat) : Takes R (place address) := by
  intro s
  unfold place
  split
  · exact Sparing.emit rfl s
  · exact refl_of R s

theorem takes_handler (k : Constants) (row : HandlerRow) : Takes R (handler k row) := by
  unfold handler
  refine (Sparing.labelAt _).bind fun start => (Sparing.labelAt _).bind fun stop =>
    (Sparing.labelAt _).bind fun entry => ?_
  dsimp only
  split
  · exact (takes_pure _).bind fun _ => Sparing.emit rfl
  · exact ((takes_lift _).bind fun _ => takes_pure _).bind fun _ => Sparing.emit rfl

/-- An operation that was looked up and has nothing to do with locals. -/
theorem takes_emit_lift {x : Except Fault (Op (Handle lab) (Handle loc))}
    (other : ∀ op, x = .ok op → op.sparesLocals = true) : Takes R (do emit (← lift x)) := by
  cases x with
  | error fault => exact fun s => refl_of R s
  | ok op => exact fun s => Sparing.emit (other op rfl) s

theorem takes_instruction (k : Constants) (className : String) (fixed : List UInt16)
    (exit : Option lab) {x : Decoded} (untouched : x.touched? = none) :
    Takes R (instruction k className fixed exit x) := by
  cases x with
  | simple opcode => exact Sparing.emit (sparesLocals_simpleOp exit opcode)
  | push value => exact Sparing.emit rfl
  | ldc index => exact (takes_lift _).bind fun _ => Sparing.emit rfl
  | access kind slot isStore => cases untouched
  | increment slot amount => cases untouched
  | ret slot => cases untouched
  | member opcode index => exact takes_emit_lift fun _ => sparesLocals_memberOp
  | cls opcode index => exact takes_emit_lift fun _ => sparesLocals_classOp
  | newArray code =>
      rw [instruction]
      split
      · exact Sparing.emit rfl
      · exact takes_lift _
  | multiNewArray index dimensions => exact (takes_lift _).bind fun _ => Sparing.emit rfl
  | branch opcode target =>
      exact (Sparing.labelAt target).bind fun _ => takes_emit_lift fun _ => sparesLocals_branchOp
  | switch default cases =>
      refine (Sparing.labelAt default).bind fun _ => Takes.bind (takes_mapM fun c => ?_) fun _ =>
        Sparing.emit rfl
      exact (Sparing.labelAt c.2).bind fun _ => takes_pure _
  | unsupported => exact takes_pure ()

end Sparing

/-- The same locals for the slots, and the same operations on them. -/
def SameTrace (s s' : Script lab loc) : Prop := s'.trace = s.trace

/-- An action that has nothing to do with locals. -/
abbrev Quiet (x : Writing lab loc α) : Prop := Takes SameTrace x

instance : Sparing (SameTrace : Script lab loc → Script lab loc → Prop) where
  refl _ := rfl
  trans _ _ _ first second := second.trans first
  emit {op} other s := by
    simp [SameTrace, Writing.emit, Script.trace, Script.use, Op.onLocals, List.filter_append,
      Op.local?_of_spares other]
  labelAt address s := by
    unfold Writing.labelAt
    split
    · rfl
    · simp [SameTrace, Script.trace, Script.use, Op.onLocals, List.filter_append, Op.local?]

theorem trace_emit {op : Op (Handle lab) (Handle loc)} {v : Handle loc}
    (onLocal : op.local? = some v) (s : Script lab loc) :
    (emit op s).2.trace = (s.trace.1, s.trace.2 ++ [op]) := by
  simp [emit, Script.trace, Script.use, Op.onLocals, List.filter_append, onLocal]

theorem trace_localAt (fixed : List UInt16) (slot : UInt16) (kind : LocalKind)
    (s : Script lab loc) : ∃ s', localAt fixed slot kind s = (.ok (s.use.handle slot kind), s') ∧
      s'.trace = (s.use.use slot kind, s.trace.2) := by
  have same : s.slots.find? slot kind = s.use.find? slot kind := rfl
  unfold localAt SlotUse.handle SlotUse.use
  rw [same]
  cases found : s.use.find? slot kind with
  | some v => exact ⟨s, rfl, rfl⟩
  | none =>
      refine ⟨_, rfl, Prod.ext ?_ ?_⟩
      · have bound : (fun slot' => (s.slots.insert slot (.made s.locals, kind))[slot']?) =
            Function.update s.use.bound slot (some (.made s.locals, kind)) := by
          funext slot'
          rw [Std.HashMap.getElem?_insert, Function.update_apply]
          simp only [beq_iff_eq, eq_comm (a := slot'), Script.use]
        exact congrArg (SlotUse.mk · (s.locals + 1)) bound
      · simp only [Script.trace, Op.onLocals, Array.toList_push, List.filter_append]
        split <;> simp [Op.local?]

/-- An instruction on a local succeeds in any case, with the local that its slot stands for. -/
theorem trace_instruction (k : Constants) (className : String) (fixed : List UInt16)
    (exit : Option lab) {x : Decoded} {slot : UInt16} {kind : LocalKind}
    (touches : x.Touches slot kind) (s : Script lab loc) :
    ∃ s', instruction k className fixed exit x s = (.ok (), s') ∧
      s'.trace =
        (s.use.use slot kind, s.trace.2 ++ [x.operation (s.use.handle slot kind)]) := by
  obtain ⟨s', found, traced⟩ := trace_localAt fixed slot kind s
  have step : instruction k className fixed exit x s =
      emit (x.operation (s.use.handle slot kind)) s' := by
    cases x with
    | access kind' slot' isStore =>
        cases touches
        cases isStore <;> rw [instruction, run_bind, found] <;> rfl
    | increment slot' amount =>
        cases touches
        rw [instruction, run_bind, found]
        rfl
    | ret slot' =>
        cases touches
        rw [instruction, run_bind, found]
        rfl
    | _ => cases touches
  refine ⟨(emit (x.operation (s.use.handle slot kind)) s').2, step, ?_⟩
  rw [trace_emit (Decoded.local?_operation touches _), traced]

variable (k : Constants) (className : String) (fixed : List UInt16) (exit : Option lab)
  (lines : Std.HashMap Nat (List UInt16))

/-- What goes before an instruction: its label and its lines. -/
def heading (address : Nat) : Writing lab loc Unit := do
  place address
  (lines.getD address []).forM fun line => emit (.lineNumber line)

theorem takes_heading {R : Script lab loc → Script lab loc → Prop} [Sparing R] (address : Nat) :
    Takes R (heading lines address) :=
  (takes_place _).bind fun _ => takes_forM fun _ _ => Sparing.emit rfl

/-- The script of one listed instruction. -/
def listed (x : Listed) : Writing lab loc Unit := do
  place x.start
  (lines.getD x.start []).forM fun line => emit (.lineNumber line)
  instruction k className fixed exit x.instruction

theorem listed_eq (x : Listed) :
    (listed k className fixed exit lines x : Writing lab loc Unit) =
      heading lines x.start >>= fun _ => instruction k className fixed exit x.instruction := by
  rw [listed, heading, bind_assoc]

theorem instructions_cons (x : Listed) (xs : List Listed) :
    (instructions k className fixed exit lines (x :: xs) : Writing lab loc Unit) =
      listed k className fixed exit lines x >>= fun _ =>
        instructions k className fixed exit (lines.erase x.start) xs := by
  simp only [instructions, listed, bind_assoc]

theorem takes_instructions {R : Script lab loc → Script lab loc → Prop} [Sparing R]
    {xs : List Listed} (h : ∀ x ∈ xs, Takes R (instruction k className fixed exit x.instruction)) :
    Takes R (instructions k className fixed exit lines xs) := by
  induction xs generalizing lines with
  | nil => exact takes_pure _
  | cons x xs ih =>
      rw [List.forall_mem_cons] at h
      rw [instructions_cons, listed_eq]
      exact ((takes_heading lines x.start).bind fun _ => h.1).bind fun _ =>
        ih (lines.erase x.start) h.2

/-- An instruction writes its operation on a local, if it has one, unless it fails. -/
theorem trace_listed (x : Listed) (s : Script lab loc) :
    (∃ s', listed k className fixed exit lines x s = (.ok (), s') ∧
        s'.trace = (s.use.touch x.instruction, s.trace.2 ++ s.use.operations [x.instruction])) ∨
      ∃ fault s', listed k className fixed exit lines x s = (.error fault, s') ∧
        s'.trace = s.trace := by
  have before : SameTrace s _ := takes_heading lines x.start s
  rw [listed_eq, run_bind]
  split
  · rename_i s' ran
    rw [ran] at before
    have used : s'.use = s.use := congrArg Prod.fst before
    rw [← before, ← used, SlotUse.touch, SlotUse.operations, SlotUse.operations]
    cases touched : x.instruction.touched? with
    | none =>
        have quiet : SameTrace s' _ := takes_instruction k className fixed exit touched s'
        dsimp only
        rw [List.append_nil]
        generalize instruction k className fixed exit x.instruction s' = result at quiet
        obtain ⟨fault | _, s''⟩ := result
        · exact .inr ⟨fault, s'', rfl, quiet⟩
        · exact .inl ⟨s'', rfl, quiet⟩
    | some use =>
        obtain ⟨s'', done, traced⟩ := trace_instruction k className fixed exit touched s'
        exact .inl ⟨s'', done, traced⟩
  · rename_i fault s' ran
    rw [ran] at before
    exact .inr ⟨fault, s', rfl, before⟩

/-- As far as an action gets, the operations on locals that it writes are those of some
instructions. -/
def Follows (xs : List Decoded) (x : Writing lab loc Unit) : Prop :=
  ∀ s, ∃ rest, s.trace.2 ++ s.use.operations xs = (x s).2.trace.2 ++ rest ∧
    ((x s).1 = .ok () → rest = [])

theorem Quiet.follows {xs : List Decoded} {x : Writing lab loc α} {f : α → Writing lab loc Unit}
    (first : Quiet x) (later : ∀ a, Follows xs (f a)) : Follows xs (x >>= f) := by
  intro s
  have quiet := first s
  rw [run_bind, ← quiet, show s.use = (x s).2.use from congrArg Prod.fst quiet.symm]
  generalize x s = result
  obtain ⟨fault | a, s'⟩ := result
  · exact ⟨_, rfl, fun ok => by cases ok⟩
  · exact later a s'

theorem Follows.quiet {xs : List Decoded} {x y : Writing lab loc Unit} (first : Follows xs x)
    (later : Quiet y) : Follows xs (x >>= fun _ => y) := by
  intro s
  obtain ⟨rest, all, complete⟩ := first s
  rw [run_bind]
  generalize x s = result at all complete
  obtain ⟨fault | _, s'⟩ := result
  · exact ⟨rest, all, fun ok => by cases ok⟩
  · refine ⟨rest, ?_, fun _ => complete rfl⟩
    rw [all]
    exact congrArg (·.2 ++ rest) (later s').symm

theorem follows_instructions (xs : List Listed) :
    Follows (xs.map (·.instruction))
      (instructions k className fixed exit lines xs : Writing lab loc Unit) := by
  intro s
  induction xs generalizing lines s with
  | nil => exact ⟨[], rfl, fun _ => rfl⟩
  | cons x xs ih =>
      rw [instructions_cons, run_bind]
      rcases trace_listed k className fixed exit lines x s with
        ⟨s', done, traced⟩ | ⟨fault, s', failed, traced⟩
      · rw [done]
        obtain ⟨rest, all, complete⟩ := ih (lines.erase x.start) s'
        refine ⟨rest, ?_, complete⟩
        rw [← all, traced, show s'.use = s.use.touch x.instruction from congrArg Prod.fst traced,
          List.append_assoc]
        congr 1
        exact SlotUse.operations_cons s.use x.instruction _
      · rw [failed]
        refine ⟨s.use.operations ((x :: xs).map (·.instruction)), ?_, fun ok => by cases ok⟩
        rw [traced]

theorem follows_listing (b : Body) (l : Listing) :
    Follows l.body (listing k b exit l : Writing lab loc Unit) := by
  unfold listing
  refine Quiet.follows (takes_forM fun x _ => takes_forM fun t _ => (Sparing.labelAt t).discard)
    fun _ => ?_
  refine Quiet.follows (takes_forM fun row _ => takes_handler k row) fun _ => ?_
  exact (follows_instructions k b.className l.returnSlots exit (linesByAddress b.lines)
    l.instructions).quiet (takes_place _)

/-- An action that succeeds on any script. -/
def Total (x : Writing lab loc α) : Prop := ∀ s, ∃ a, (x s).1 = .ok a

theorem Total.bind {x : Writing lab loc α} {f : α → Writing lab loc β} (first : Total x)
    (later : ∀ a, Total (f a)) : Total (x >>= f) := by
  intro s
  obtain ⟨a, ok⟩ := first s
  rw [run_bind]
  generalize x s = result at ok
  obtain ⟨r, s'⟩ := result
  cases ok
  exact later a s'

theorem total_emit (op : Op (Handle lab) (Handle loc)) : Total (emit op) := fun _ => ⟨(), rfl⟩

theorem total_labelAt (address : Nat) : Total (labelAt address : Writing lab loc (Handle lab)) := by
  intro s
  unfold labelAt
  split <;> exact ⟨_, rfl⟩

theorem total_place (address : Nat) : Total (place address : Writing lab loc Unit) := by
  intro s
  unfold place
  split <;> exact ⟨(), rfl⟩

theorem Total.discard {x : Writing lab loc α} (h : Total x) :
    Total (discard x : Writing lab loc Unit) := by
  intro s
  obtain ⟨a, ok⟩ := h s
  rw [run_discard, ok]
  exact ⟨(), rfl⟩

theorem total_forM {xs : List β} {f : β → Writing lab loc Unit} (h : ∀ x ∈ xs, Total (f x)) :
    Total (xs.forM f) := by
  induction xs with
  | nil => exact fun _ => ⟨(), rfl⟩
  | cons x xs ih =>
      rw [List.forall_mem_cons] at h
      exact h.1.bind fun _ => ih h.2

theorem total_of_touches {x : Decoded} {slot : UInt16} {kind : LocalKind}
    (touches : x.Touches slot kind) :
    Total (instruction k className fixed exit x : Writing lab loc Unit) := by
  intro s
  obtain ⟨s', done, -⟩ := trace_instruction k className fixed exit touches s
  exact ⟨(), congrArg Prod.fst done⟩

theorem total_instructions {xs : List Listed} (h : ∀ x ∈ xs,
      Total (instruction k className fixed exit x.instruction : Writing lab loc Unit)) :
    Total (instructions k className fixed exit lines xs : Writing lab loc Unit) := by
  induction xs generalizing lines with
  | nil => exact fun _ => ⟨(), rfl⟩
  | cons x xs ih =>
      rw [List.forall_mem_cons] at h
      refine (total_place _).bind fun _ => (total_forM fun line _ => total_emit _).bind fun _ => ?_
      exact h.1.bind fun _ => ih (lines.erase x.start) h.2

/-- A script is complete if the handlers and the instructions find what they refer to. -/
theorem total_listing (b : Body) (l : Listing) (handlers : ∀ row ∈ b.handlers,
      Total (handler k row : Writing lab loc Unit))
    (instructions : ∀ x ∈ l.body,
      Total (instruction k b.className l.returnSlots exit x : Writing lab loc Unit)) :
    Total (listing k b exit l : Writing lab loc Unit) := by
  refine (total_forM fun x _ => total_forM fun t _ => (total_labelAt t).discard).bind fun _ => ?_
  refine (total_forM handlers).bind fun _ => ?_
  refine (total_instructions k _ _ exit _ fun x member => ?_).bind fun _ => total_place _
  exact instructions x.instruction (List.mem_map_of_mem member)

end Writing

/-- What a script does with locals: it is refused from the start, or it gives the locals of the
slots to the instructions in order, all of them unless it ends early. -/
theorem Body.disassemble_onLocals (b : Body) (k : Constants)
    (typeOf : loc → Except Fault FieldType) (arguments : List loc) (exit : Option lab) :
    ((b.disassemble k typeOf arguments exit).ops = [] ∧
        (b.disassemble k typeOf arguments exit).fault ≠ none) ∨
      ∃ types slots rest, b.argumentTypes = .ok types ∧ types.length = arguments.length ∧
        SlotMap.bind typeOf 0 ∅ types arguments = .ok slots ∧
        (SlotUse.mk (fun slot => slots[slot]?) 0).operations (Listing.decode b.code).body =
          Op.onLocals (b.disassemble k typeOf arguments exit).ops ++ rest ∧
        ((b.disassemble k typeOf arguments exit).fault = none → rest = []) := by
  unfold Body.disassemble
  dsimp only
  split
  · exact .inl ⟨rfl, Option.some_ne_none _⟩
  · rename_i types found
    split
    · exact .inl ⟨rfl, Option.some_ne_none _⟩
    · rename_i counted
      split
      · exact .inl ⟨rfl, Option.some_ne_none _⟩
      · rename_i slots bound
        obtain ⟨rest, all, complete⟩ := Writing.follows_listing k exit b (Listing.decode b.code)
          ⟨#[], #[], ∅, slots, 0⟩
        refine .inr ⟨types, slots, rest, found, not_not.mp counted, bound, ?_⟩
        split
        · rename_i s ran
          rw [ran] at all complete
          exact ⟨all, fun _ => complete rfl⟩
        · rename_i fault s ran
          rw [ran] at all
          exact ⟨all, fun none => by cases none⟩

/-- A script that starts and whose actions all succeed does not end early. -/
theorem Body.fault_eq_none {b : Body} {k : Constants} {typeOf : loc → Except Fault FieldType}
    {arguments : List loc} {exit : Option lab} {types : List FieldType} {slots : SlotMap loc}
    (found : b.argumentTypes = .ok types) (counted : types.length = arguments.length)
    (bound : SlotMap.bind typeOf 0 ∅ types arguments = .ok slots)
    (total : Writing.Total
      (Writing.listing k b exit (.decode b.code) : Writing lab loc Unit)) :
    (b.disassemble k typeOf arguments exit).fault = none := by
  obtain ⟨_, ok⟩ := total ⟨#[], #[], ∅, slots, 0⟩
  unfold Body.disassemble
  simp only [found, counted, ne_eq, not_true_eq_false, if_false, bound]
  generalize Writing.listing k b exit (.decode b.code) ⟨#[], #[], ∅, slots, 0⟩ = result at ok
  obtain ⟨r, s⟩ := result
  cases ok
  rfl

end JvmAssembly
