import Mathlib
import JvmAssembly.Proofs.Builder.Redoing
import JvmAssembly.Proofs.Descriptor.Grammar

/-!
What a script names. A decoded instruction names a member or a class by an index; its operation
names it by types, and leaves out the class itself. Spelled out, both are the same.
-/
namespace JvmAssembly

open Pool

/-- A member or class by its spelling, and the opcode of the instruction that names it. -/
inductive Mention where
  | member (opcode : Opcode) (member : Pool.Member)
  | cls (opcode : Opcode) (name : String)
  | multiNewArray (name : String) (dimensions : UInt8)
  /-- Of an exception handler; one that catches everything has no class. -/
  | catches (name : Option String)
deriving DecidableEq

def Mention.isCatch : Mention → Bool
  | .catches _ => true
  | _ => false

namespace Constants

def className (k : Constants) (index : UInt16) : Except Fault String := do
  k.pool.getClassName (← k.table.lookup index)

/-- A member as an opcode refers to it: for a field, there is no question of interfaces. -/
def memberFor (k : Constants) (op : Opcode) (index : UInt16) : Except Fault Pool.Member :=
  (fun m => if (InvokeKind.ofOpcode? op).isSome then m else { m with isInterface := false }) <$>
    k.member index

end Constants

/-- What an instruction names, if it names anything, through a table of indices. -/
def Decoded.mention (k : Constants) : Decoded → Option (Except Fault Mention)
  | .member op index => some (.member op <$> k.memberFor op index)
  | .cls op index => some (.cls op <$> k.className index)
  | .multiNewArray index dimensions => some ((.multiNewArray · dimensions) <$> k.className index)
  | _ => none

def HandlerRow.mention (k : Constants) (row : HandlerRow) : Except Fault Mention :=
  if row.catchType = 0 then .ok (.catches none)
  else (fun name => .catches (some name)) <$> k.className row.catchType

/-- All that a body names: in the exception table, then in the code. -/
def Body.mentions (b : Body) (k : Constants) : List (Except Fault Mention) :=
  b.handlers.map (·.mention k) ++ (Listing.decode b.code).body.filterMap (·.mention k)

/-- The helper that a conversion of bits calls. -/
def Conversion.mention (source target : FieldType) (mode : ConvertMode) : Option Mention :=
  match source, target with
  | .base s, .base t =>
    if mode = .normal then none
    else (Conversion.bitsHelper? (mode == .rawBits) s t).map fun helper =>
      .member Opcode.invokestatic
        ⟨helper.1.text, helper.2, MethodDescriptor.render ⟨[source], some target⟩, false⟩
  | _, _ => none

/-- What an operation names, in a class of a name. -/
def Op.mention {lab loc : Type} (self : String) : Op lab loc → Option Mention
  | .getField owner name type isStatic =>
    some (.member (if isStatic then Opcode.getstatic else Opcode.getfield)
      ⟨(owner.map (·.text)).getD self, name, type.render, false⟩)
  | .putField owner name type isStatic =>
    some (.member (if isStatic then Opcode.putstatic else Opcode.putfield)
      ⟨(owner.map (·.text)).getD self, name, type.render, false⟩)
  | .invoke kind owner name descriptor isInterface =>
    some (.member kind.opcode
      ⟨(owner.map (·.className)).getD self, name, descriptor.render, isInterface⟩)
  | .newObject name => some (.cls Opcode.new name.text)
  | .newArray (.ref r) => some (.cls Opcode.anewarray r.className)
  | .checkCast r => some (.cls Opcode.checkcast r.className)
  | .instanceOf r => some (.cls Opcode.instanceof r.className)
  | .newMultiArray r dimensions => some (.multiNewArray r.className dimensions)
  | .exceptionHandler _ _ _ catchType => some (.catches (catchType.map (·.className)))
  | .convert source target mode => Conversion.mention source target mode
  | _ => none

namespace Writing

variable {lab loc α β : Type} {self : String}

/-- What the script names so far. -/
def ledger (self : String) (s : Script lab loc) : List Mention :=
  s.ops.toList.filterMap (Op.mention self)

/-- What an action adds to what the script names. If it fails, it has got part of the way. -/
def Records (self : String) (ms : List (Except Fault Mention)) (x : Writing lab loc α) : Prop :=
  ∀ s, ∃ done rest, ledger self (x s).2 = ledger self s ++ done ∧ ms = done.map .ok ++ rest ∧
    ∀ a, (x s).1 = .ok a → rest = []

/-- An action that names nothing. -/
theorem records_nil {x : Writing lab loc α} (same : ∀ s, ledger self (x s).2 = ledger self s) :
    Records self [] x :=
  fun s => ⟨[], [], by rw [same, List.append_nil], rfl, fun _ _ => rfl⟩

theorem records_pure (a : α) : Records self [] (pure a : Writing lab loc α) :=
  records_nil fun _ => rfl

theorem records_lift (x : Except Fault α) : Records self [] (lift x : Writing lab loc α) :=
  records_nil fun _ => rfl

theorem filterMap_push (op : Op (Handle lab) (Handle loc))
    (ops : Array (Op (Handle lab) (Handle loc))) :
    (ops.push op).toList.filterMap (Op.mention self) =
      ops.toList.filterMap (Op.mention self) ++ (op.mention self).toList := by
  rw [Array.toList_push, List.filterMap_append]
  cases named : op.mention self with
  | none =>
      rw [List.filterMap_cons_none named]
      rfl
  | some m =>
      rw [List.filterMap_cons_some named]
      rfl

theorem ledger_push {op : Op (Handle lab) (Handle loc)} (silent : op.mention self = none)
    (ops : Array (Op (Handle lab) (Handle loc))) :
    (ops.push op).toList.filterMap (Op.mention self) = ops.toList.filterMap (Op.mention self) := by
  rw [filterMap_push, silent]
  exact List.append_nil _

theorem Records.bind {x : Writing lab loc α} {f : α → Writing lab loc β}
    {ms ms' : List (Except Fault Mention)} (first : Records self ms x)
    (later : ∀ a, Records self ms' (f a)) : Records self (ms ++ ms') (x >>= f) := by
  intro s
  obtain ⟨done, rest, named, all, complete⟩ := first s
  rw [run_bind]
  generalize x s = result at named complete
  obtain ⟨fault | a, s'⟩ := result
  · refine ⟨done, rest ++ ms', named, ?_, fun _ ok => by cases ok⟩
    rw [all, List.append_assoc]
  · obtain ⟨done', rest', named', all', complete'⟩ := later a s'
    refine ⟨done ++ done', rest', ?_, ?_, complete'⟩
    · rw [← List.append_assoc, ← named]
      exact named'
    · rw [all, all', complete a rfl, List.append_nil, List.map_append, List.append_assoc]

theorem records_forM {xs : List β} {f : β → Writing lab loc Unit}
    {g : β → List (Except Fault Mention)} (each : ∀ x ∈ xs, Records self (g x) (f x)) :
    Records self (xs.flatMap g) (xs.forM f) := by
  induction xs with
  | nil => exact records_pure ()
  | cons x xs ih =>
      rw [List.forall_mem_cons] at each
      rw [List.flatMap_cons]
      exact each.1.bind fun _ => ih each.2

theorem records_forM_nil {xs : List β} {f : β → Writing lab loc Unit}
    (each : ∀ x ∈ xs, Records self [] (f x)) : Records self [] (xs.forM f) := by
  have all := records_forM (g := fun _ => []) each
  rwa [List.flatMap_eq_nil_iff.mpr fun _ _ => rfl] at all

theorem records_mapM {xs : List β} {f : β → Writing lab loc α} (each : ∀ x, Records self [] (f x)) :
    Records self [] (xs.mapM f) := by
  induction xs with
  | nil => exact records_pure []
  | cons x xs ih =>
      rw [List.mapM_cons]
      exact (each x).bind fun _ => ih.bind fun _ => records_pure _

theorem records_emit (op : Op (Handle lab) (Handle loc)) :
    Records self ((op.mention self).toList.map .ok) (emit op) := by
  intro s
  exact ⟨(op.mention self).toList, [], filterMap_push op s.ops, (List.append_nil _).symm,
    fun _ _ => rfl⟩

theorem records_emit_nil {op : Op (Handle lab) (Handle loc)} (silent : op.mention self = none) :
    Records self [] (emit op) :=
  records_nil fun s => ledger_push silent s.ops

/-- An operation that comes from a look-up names what the look-up was for. -/
theorem records_emit_lift {x : Except Fault α} {f : α → Op (Handle lab) (Handle loc)}
    {r : Except Fault Mention}
    (agrees : ∀ a, x = .ok a → ∃ m, r = .ok m ∧ (f a).mention self = some m) :
    Records self [r] (do emit (f (← lift x))) := by
  cases x with
  | error fault => exact fun s => ⟨[], [r], (List.append_nil _).symm, rfl, fun _ ok => by cases ok⟩
  | ok a =>
      obtain ⟨m, rfl, named⟩ := agrees a rfl
      have emitted : Records self _ (emit (f a)) := records_emit (f a)
      rw [named] at emitted
      exact emitted

theorem records_emit_lift_nil {x : Except Fault (Op (Handle lab) (Handle loc))}
    (silent : ∀ op, x = .ok op → op.mention self = none) :
    Records self [] (do emit (← lift x)) := by
  cases x with
  | error fault => exact records_nil fun _ => rfl
  | ok op => exact records_emit_nil (silent op rfl)

theorem records_labelAt (address : Nat) :
    Records self [] (labelAt address : Writing lab loc (Handle lab)) := by
  refine records_nil fun s => ?_
  unfold labelAt
  cases s.labels[address]? with
  | some n => rfl
  | none => exact ledger_push rfl s.ops

theorem records_localAt (fixed : List UInt16) (slot : UInt16) (kind : LocalKind) :
    Records self [] (localAt fixed slot kind : Writing lab loc (Handle loc)) := by
  refine records_nil fun s => ?_
  unfold localAt
  cases s.slots.find? slot kind with
  | some v => rfl
  | none =>
      refine ledger_push ?_ s.ops
      by_cases pinned : slot ∈ fixed
      · rw [if_pos pinned]
        rfl
      · rw [if_neg pinned]
        rfl

theorem records_place (address : Nat) :
    Records self [] (place address : Writing lab loc Unit) := by
  refine records_nil fun s => ?_
  unfold place
  cases s.labels[address]? with
  | some n => exact ledger_push rfl s.ops
  | none => rfl

section Lookups

variable {k : Constants} {op : Opcode} {index : UInt16} {o : Op (Handle lab) (Handle loc)}

theorem className_of_cls {r : RefType} (found : k.cls index = .ok r) :
    k.className index = .ok r.className := by
  obtain ⟨ref, known, found⟩ := bind_eq_ok.mp found
  obtain ⟨name, spelled, parsed⟩ := bind_eq_ok.mp found
  rw [RefType.ofClassName_eq_ok.mp parsed]
  exact bind_eq_ok.mpr ⟨ref, known, spelled⟩

/-- The opcodes of fields and of calls, and of instructions about classes. -/
theorem member_families (op : Opcode) :
    ((Format.ofOpcode op = .member ∨ Format.ofOpcode op = .interface) ∧
        InvokeKind.ofOpcode? op = none →
      op = (if op = Opcode.getfield ∨ op = Opcode.getstatic then
        if op == Opcode.getstatic || op == Opcode.putstatic then Opcode.getstatic
          else Opcode.getfield
        else if op == Opcode.getstatic || op == Opcode.putstatic then Opcode.putstatic
          else Opcode.putfield)) ∧
    (Format.ofOpcode op = .cls → op ≠ Opcode.anewarray → op ≠ Opcode.checkcast →
      op ≠ Opcode.instanceof → op = Opcode.new) := by
  revert op
  exact Opcode.forall_of_decide (by decide +kernel)

theorem mention_classOp (formed : Format.ofOpcode op = .cls)
    (written : classOp k op index = .ok o) :
    ∃ m, Mention.cls op <$> k.className index = .ok m ∧ o.mention self = some m := by
  obtain ⟨r, found, written⟩ := bind_eq_ok.mp written
  rw [className_of_cls found]
  by_cases array : op = Opcode.anewarray
  · rw [if_pos array] at written
    cases written
    exact ⟨_, rfl, by rw [array]; rfl⟩
  rw [if_neg array] at written
  by_cases cast : op = Opcode.checkcast
  · rw [if_pos cast] at written
    cases written
    exact ⟨_, rfl, by rw [cast]; rfl⟩
  rw [if_neg cast] at written
  by_cases test : op = Opcode.instanceof
  · rw [if_pos test] at written
    cases written
    exact ⟨_, rfl, by rw [test]; rfl⟩
  rw [if_neg test] at written
  have new := (member_families op).2 formed array cast test
  cases r with
  | object name =>
      cases written
      exact ⟨_, rfl, by rw [new]; rfl⟩
  | array dimensions element => cases written

theorem opcode_of_ofOpcode? {kind : InvokeKind} (call : InvokeKind.ofOpcode? op = some kind) :
    kind.opcode = op :=
  beq_iff_eq.mp (List.find?_some (p := fun k : InvokeKind => k.opcode == op) call)

/-- The owner that is left out is the class itself. -/
theorem owner_spelled {name className : String} {text : α → String} {x : Except Fault α}
    (spells : ∀ a, x = .ok a → text a = name) {f : Option α → Except Fault β} {b : β}
    (written : (if (name == className) = true then pure none >>= f else (some <$> x) >>= f) =
      Except.ok b) :
    ∃ owner, (owner.map text).getD className = name ∧ f owner = .ok b := by
  by_cases own : name = className
  · rw [if_pos (beq_iff_eq.mpr own)] at written
    exact ⟨none, own.symm, written⟩
  · rw [if_neg (beq_iff_eq.not.mpr own)] at written
    obtain ⟨owner, looked, written⟩ := bind_eq_ok.mp written
    obtain ⟨a, found, same⟩ := bind_eq_ok.mp looked
    cases same
    exact ⟨some a, spells a found, written⟩

/-- A member is spelled by its own class or by the owner that is written out. -/
theorem mention_memberOp {className : String}
    (formed : Format.ofOpcode op = .member ∨ Format.ofOpcode op = .interface)
    (written : memberOp k className op index = .ok o) :
    ∃ m, Mention.member op <$> k.memberFor op index = .ok m ∧ o.mention className = some m := by
  obtain ⟨m, found, written⟩ := bind_eq_ok.mp written
  dsimp only at written
  rw [Constants.memberFor, found]
  cases call : InvokeKind.ofOpcode? op with
  | some kind =>
      rw [call] at written
      obtain ⟨descriptor, typed, written⟩ := bind_eq_ok.mp written
      obtain ⟨owner, spelled, written⟩ :=
        owner_spelled (fun r => RefType.ofClassName_eq_ok.mp) written
      cases written
      refine ⟨_, rfl, ?_⟩
      rw [Op.mention, spelled, opcode_of_ofOpcode? call,
        MethodDescriptor.parse_eq_ok.mp (mapError_eq_ok.mp typed)]
      rfl
  | none =>
      rw [call] at written
      obtain ⟨type, typed, written⟩ := bind_eq_ok.mp written
      obtain ⟨owner, spelled, written⟩ :=
        owner_spelled (fun n made => BinaryName.text_of_ofString (mapError_eq_ok.mp made)) written
      refine ⟨_, rfl, ?_⟩
      have opcode := (member_families op).1 ⟨formed, call⟩
      by_cases gets : op = Opcode.getfield ∨ op = Opcode.getstatic
      · rw [if_pos gets] at written opcode
        cases written
        rw [Op.mention, spelled, ← opcode, FieldType.parse_eq_ok.mp (mapError_eq_ok.mp typed)]
        rfl
      · rw [if_neg gets] at written opcode
        cases written
        rw [Op.mention, spelled, ← opcode, FieldType.parse_eq_ok.mp (mapError_eq_ok.mp typed)]
        rfl

end Lookups

variable {k : Constants} {className : String} {fixed : List UInt16} {exit : Option lab}

theorem mention_ite {c : Prop} [Decidable c] {a b : Op (Handle lab) (Handle loc)}
    (ha : a.mention self = none) (hb : b.mention self = none) :
    (if c then a else b).mention self = none := by
  split
  · exact ha
  · exact hb

theorem mention_convert (source target : FieldType) :
    Conversion.mention source target .normal = none := by
  cases source with
  | ref r => rfl
  | base s =>
      cases target with
      | ref r => rfl
      | base t => rfl

/-- Instructions without operands name nothing. -/
theorem mention_simpleOp (exit : Option lab) (op : Opcode) :
    (simpleOp exit op : Op (Handle lab) (Handle loc)).mention self = none := by
  unfold simpleOp
  cases shortValue? op with
  | some value => rfl
  | none =>
      iterate 4 refine mention_ite rfl ?_
      refine mention_ite (mention_convert _ _) (mention_ite ?_ ?_)
      · cases exit <;> rfl
      · iterate 4 refine mention_ite rfl ?_
        cases StackOp.ofOpcode? op <;> rfl

theorem mention_branchOp {op : Opcode} {target : Handle lab} {o : Op (Handle lab) (Handle loc)}
    (written : branchOp op target = .ok o) : o.mention self = none := by
  unfold branchOp at written
  cases found : Comparison.ofOpcode? op with
  | none =>
      rw [found] at written
      split_ifs at written <;> cases written <;> rfl
  | some c =>
      rw [found] at written
      split_ifs at written <;> cases written <;> rfl

theorem records_handler (row : HandlerRow) :
    Records self [row.mention k] (handler k row : Writing lab loc Unit) := by
  unfold handler
  refine (records_labelAt _).bind fun start => (records_labelAt _).bind fun stop =>
    (records_labelAt _).bind fun entry => ?_
  dsimp only
  unfold HandlerRow.mention
  by_cases all : row.catchType = 0
  · rw [if_pos all, if_pos all]
    exact records_emit _
  · rw [if_neg all, if_neg all, bind_map_left]
    refine records_emit_lift (f := fun r => .exceptionHandler start stop entry (some r)) ?_
    intro r found
    rw [className_of_cls found]
    exact ⟨_, rfl, rfl⟩

/-- An instruction writes an operation that names what the instruction names. -/
theorem records_instruction {x : Decoded} (formed : x.Formed) :
    Records className (x.mention k).toList
      (instruction k className fixed exit x : Writing lab loc Unit) := by
  cases x with
  | simple op => exact records_emit_nil (mention_simpleOp exit op)
  | push value => exact records_emit_nil rfl
  | ldc index => exact (records_lift _).bind fun _ => records_emit_nil rfl
  | access kind slot isStore =>
      cases isStore with
      | true => exact (records_localAt _ _ _).bind fun _ => records_emit_nil rfl
      | false => exact (records_localAt _ _ _).bind fun _ => records_emit_nil rfl
  | increment slot amount => exact (records_localAt _ _ _).bind fun _ => records_emit_nil rfl
  | ret slot => exact (records_localAt _ _ _).bind fun _ => records_emit_nil rfl
  | member op index => exact records_emit_lift (f := id) fun o => mention_memberOp formed
  | cls op index => exact records_emit_lift (f := id) fun o => mention_classOp formed
  | newArray code =>
      rw [instruction]
      cases BaseType.ofArrayCode? code with
      | some b => exact records_emit_nil rfl
      | none => exact records_lift _
  | multiNewArray index dimensions =>
      refine records_emit_lift (f := (.newMultiArray · dimensions)) fun r found => ?_
      rw [className_of_cls found]
      exact ⟨_, rfl, rfl⟩
  | branch op target =>
      exact (records_labelAt target).bind fun _ => records_emit_lift_nil fun _ => mention_branchOp
  | switch default cases =>
      refine (records_labelAt default).bind fun _ => ?_
      refine Records.bind (records_mapM fun c => ?_) fun _ => records_emit_nil rfl
      exact (records_labelAt c.2).bind fun _ => records_pure _
  | unsupported => exact records_pure ()

theorem records_instructions {fixed : List UInt16} {className : String} {xs : List Listed}
    (formed : ∀ x ∈ xs, x.instruction.Formed) (lines : Std.HashMap Nat (List UInt16)) :
    Records className (xs.flatMap fun x => (x.instruction.mention k).toList)
      (instructions k className fixed exit lines xs : Writing lab loc Unit) := by
  induction xs generalizing lines with
  | nil => exact records_pure ()
  | cons x xs ih =>
      rw [List.forall_mem_cons] at formed
      rw [List.flatMap_cons, ← List.nil_append (_ ++ _)]
      refine (records_place _).bind fun _ => ?_
      rw [← List.nil_append (_ ++ _)]
      refine (records_forM_nil fun line _ => records_emit_nil rfl).bind fun _ => ?_
      exact (records_instruction formed.1).bind fun _ => ih formed.2 (lines.erase x.start)

/-- A script names what the body names, in the same order. -/
theorem records_listing (b : Body) :
    Records b.className (b.mentions k)
      (listing k b exit (.decode b.code) : Writing lab loc Unit) := by
  have handlers : b.handlers.map (·.mention k) = b.handlers.flatMap fun row => [row.mention k] :=
    List.map_eq_flatMap
  have code : (Listing.decode b.code).body.filterMap (·.mention k) =
      (Listing.decode b.code).instructions.flatMap fun x => (x.instruction.mention k).toList := by
    rw [Listing.body, List.filterMap_map, List.filterMap_eq_flatMap_toList]
    rfl
  unfold listing Body.mentions
  rw [handlers, code, ← List.nil_append (_ ++ _)]
  refine Records.bind (records_forM_nil fun x _ => records_forM_nil fun t _ => ?_) fun _ => ?_
  · exact (records_labelAt t).bind fun _ => records_pure ()
  refine Records.bind (records_forM fun row _ => records_handler row) fun _ => ?_
  rw [← List.append_nil (List.flatMap _ _)]
  exact (records_instructions (Listing.formed_decode b.code) _).bind fun _ => records_place _

end Writing

/-- As far as a script gets, it names what the body names. -/
theorem Body.mentions_disassemble {lab loc : Type} (b : Body) (k : Constants)
    (typeOf : loc → Except Fault FieldType) (arguments : List loc) (exit : Option lab) :
    ∃ rest, b.mentions k =
        ((b.disassemble k typeOf arguments exit).ops.filterMap (Op.mention b.className)).map .ok ++
          rest ∧
      ((b.disassemble k typeOf arguments exit).fault = none → rest = []) := by
  have refused : ∀ fault : Fault, ∃ rest, b.mentions k = [] ++ rest ∧
      (some fault = none → rest = []) :=
    fun fault => ⟨b.mentions k, rfl, fun none => by cases none⟩
  unfold Body.disassemble
  dsimp only
  cases b.argumentTypes with
  | error fault => exact refused fault
  | ok types =>
      dsimp only
      by_cases counted : types.length ≠ arguments.length
      · rw [if_pos counted]
        exact refused _
      rw [if_neg counted]
      cases SlotMap.bind typeOf 0 ∅ types arguments with
      | error fault => exact refused fault
      | ok slots =>
          obtain ⟨done, rest, named, all, complete⟩ :=
            @Writing.records_listing lab loc k exit b ⟨#[], #[], ∅, slots, 0⟩
          have named : Writing.ledger b.className _ = done := named
          rw [← named] at all
          dsimp only
          generalize Writing.listing k b exit (.decode b.code) ⟨#[], #[], ∅, slots, 0⟩ = result
            at all complete
          obtain ⟨fault | _, s⟩ := result
          · exact ⟨rest, all, fun none => by cases none⟩
          · exact ⟨rest, all, fun _ => complete () rfl⟩

end JvmAssembly
