import Mathlib
import JvmAssembly.Proofs.Disassembly.Format

/-!
How far instructions reach. The length of an instruction and the places it jumps to are read off the
code by position; the decoder takes exactly that stretch, or stops where the code ends within the
instruction or a jump goes where there is no address. So the instructions of a listing tile the
code.
-/
namespace JvmAssembly

section Words

/-- The byte at a position; there are zeros behind the code. -/
def byteAt (code : Bytes) (a : Nat) : UInt8 := code.getD a 0

def u16At (code : Bytes) (a : Nat) : UInt16 :=
  UInt16.ofNat ((byteAt code a).toNat * 0x100 + (byteAt code (a + 1)).toNat)

def u32At (code : Bytes) (a : Nat) : UInt32 :=
  UInt32.ofNat ((u16At code a).toNat * 0x10000 + (u16At code (a + 2)).toNat)

def i16At (code : Bytes) (a : Nat) : Int := (u16At code a).toInt16.toInt

def i32At (code : Bytes) (a : Nat) : Int := (u32At code a).toInt32.toInt

theorem i16At_lt (code : Bytes) (a : Nat) : i16At code a < 2 ^ 15 := Int16.toInt_lt _

theorem i32At_lt (code : Bytes) (a : Nat) : i32At code a < 2 ^ 31 := Int32.toInt_lt _

end Words

section Extents

def Opcode.jumpsNear (op : Opcode) : Prop :=
  (Opcode.ifeq ≤ op ∧ op ≤ Opcode.jsr) ∨ op = Opcode.ifnull ∨ op = Opcode.ifnonnull
deriving Decidable

def Opcode.jumpsFar (op : Opcode) : Prop := op = Opcode.goto_w ∨ op = Opcode.jsr_w
deriving Decidable

/-- Bytes of an instruction whose opcode decides how many there are. -/
def Opcode.length (op : Opcode) : Nat :=
  if op = Opcode.bipush ∨ op = Opcode.ldc ∨ Decoded.isLongAccess op ∨ op = Opcode.ret ∨
      op = Opcode.newarray then 2
  else if op = Opcode.sipush ∨ op = Opcode.ldc_w ∨ op = Opcode.ldc2_w ∨ op = Opcode.iinc ∨
      op.jumpsNear ∨ (Opcode.getstatic ≤ op ∧ op ≤ Opcode.invokestatic) ∨ op = Opcode.new ∨
      op = Opcode.anewarray ∨ op = Opcode.checkcast ∨ op = Opcode.instanceof then 3
  else if op = Opcode.multianewarray then 4
  else if op = Opcode.invokeinterface ∨ op = Opcode.invokedynamic ∨ op.jumpsFar then 5
  else 1

/-- Where the operands of a switch start: at the next multiple of four. -/
def switchStart (a : Nat) : Nat := (a / 4 + 1) * 4

/-- How many jumps the table of a switch has. -/
def tableRows (code : Bytes) (a : Nat) : Nat :=
  (i32At code (switchStart a + 8) - i32At code (switchStart a + 4) + 1).toNat

def lookupRows (code : Bytes) (a : Nat) : Nat := (i32At code (switchStart a + 4)).toNat

/-- The position behind the instruction at a position. -/
def instructionEnd (code : Bytes) (a : Nat) : Nat :=
  if byteAt code a = Opcode.wide then
    if byteAt code (a + 1) = Opcode.iinc then a + 6 else a + 4
  else if byteAt code a = Opcode.tableswitch then
    switchStart a + 12 + 4 * tableRows code a
  else if byteAt code a = Opcode.lookupswitch then
    switchStart a + 8 + 8 * lookupRows code a
  else a + Opcode.length (byteAt code a)

/-- Where the instruction at a position jumps to, the default of a switch first. -/
def jumpsAt (code : Bytes) (a : Nat) : List Int :=
  let op := byteAt code a
  if Opcode.jumpsNear op then [a + i16At code (a + 1)]
  else if Opcode.jumpsFar op then [a + i32At code (a + 1)]
  else if op = Opcode.tableswitch then
    (a + i32At code (switchStart a)) ::
      (List.range (tableRows code a)).map fun i => a + i32At code (switchStart a + 12 + 4 * i)
  else if op = Opcode.lookupswitch then
    (a + i32At code (switchStart a)) ::
      (List.range (lookupRows code a)).map fun i => a + i32At code (switchStart a + 8 + 8 * i + 4)
  else []

/-- The instruction at a position jumps to behind the last address. -/
def JumpsPast (code : Bytes) (a : Nat) : Prop := ∃ target ∈ jumpsAt code a, 2 ^ 32 ≤ target

/-- No jump goes farther than a word with a sign reaches. -/
theorem lt_of_mem_jumpsAt {code : Bytes} {a : Nat} {t : Int} (member : t ∈ jumpsAt code a) :
    t < a + 2 ^ 31 := by
  have far : ∀ place, (a : Int) + i32At code place < a + 2 ^ 31 := fun place =>
    Int.add_lt_add_left (i32At_lt code place) a
  have rows : ∀ (start n : Nat) (place : Nat → Nat),
      t ∈ (a + i32At code start) :: (List.range n).map (fun i => a + i32At code (place i)) →
      t < a + 2 ^ 31 := by
    intro start n place row
    rcases List.mem_cons.mp row with rfl | row
    · exact far start
    · obtain ⟨i, -, rfl⟩ := List.mem_map.mp row
      exact far (place i)
  unfold jumpsAt at member
  dsimp only at member
  split at member
  · rw [List.mem_singleton.mp member]
    have near := i16At_lt code (a + 1)
    omega
  split at member
  · rw [List.mem_singleton.mp member]
    exact far (a + 1)
  split at member
  · exact rows _ _ _ member
  split at member
  · exact rows _ _ _ member
  · cases member

/-- Only far into the code there are jumps that go behind the last address. -/
theorem JumpsPast.lt {code : Bytes} {a : Nat} (past : JumpsPast code a) : 2 ^ 31 < a := by
  obtain ⟨target, member, behind⟩ := past
  have near := lt_of_mem_jumpsAt member
  omega

end Extents

/-- The address of a jump is a word of 32 bits. -/
def IsAddress (target : Int) : Prop := 0 ≤ target ∧ target < 2 ^ 32

/-- The cursor at a position of the code. -/
def Cursor.at (code : Bytes) (a : Nat) : Cursor := ⟨a, code.drop a⟩

/-- From a position on, the scan takes the code up to another position and makes a value of it, if
there is that much code and the condition holds. Else it fails. -/
structure Scan.Spans {α : Type} (code : Bytes) (s : Scan α) (a stop : Nat) (fine : Prop)
    (value : α) : Prop where
  forward : a ≤ stop
  reads (inside : stop ≤ code.length) (holds : fine) :
    s (.at code a) = some (value, .at code stop)
  fails (reached : a ≤ code.length) (wrong : code.length < stop ∨ ¬ fine) :
    s (.at code a) = none

namespace Scan.Spans

variable {α β : Type} {code : Bytes} {a b c : Nat} {p q : Prop} {x : α} {y : β}

theorem pure (x : α) : Spans code (Pure.pure x) a a True x where
  forward := Nat.le_refl a
  reads _ _ := rfl
  fails reached wrong := by
    rcases wrong with short | impossible
    · exact absurd short (Nat.not_lt.mpr reached)
    · exact absurd trivial impossible

theorem bind {s : Scan α} {k : α → Scan β} (first : Spans code s a b p x)
    (second : Spans code (k x) b c q y) : Spans code (s >>= k) a c (p ∧ q) y where
  forward := Nat.le_trans first.forward second.forward
  reads inside holds := by
    change (s (.at code a)).bind (fun r => k r.1 r.2) = _
    rw [first.reads (Nat.le_trans second.forward inside) holds.1]
    exact second.reads inside holds.2
  fails reached wrong := by
    change (s (.at code a)).bind (fun r => k r.1 r.2) = none
    by_cases early : code.length < b ∨ ¬ p
    · rw [first.fails reached early]
      rfl
    · rw [not_or, not_not, Nat.not_lt] at early
      rw [first.reads early.1 early.2]
      refine second.fails early.1 ?_
      rcases wrong with short | wrong
      · exact .inl short
      · exact .inr fun holds => wrong ⟨early.2, holds⟩

theorem of_iff {s : Scan α} (spans : Spans code s a b p x) (same : p ↔ q) :
    Spans code s a b q x := by
  rwa [propext same] at spans

/-- A scan that only runs out of bytes, and another behind it. -/
theorem andThen {s : Scan α} {k : α → Scan β} (first : Spans code s a b True x)
    (second : Spans code (k x) b c q y) : Spans code (s >>= k) a c q y :=
  (first.bind second).of_iff (iff_of_eq (true_and q))

theorem exists_andThen {s : Scan α} {k : α → Scan β} (first : Spans code s a b True x)
    (second : ∃ y, Spans code (k x) b c q y) : ∃ y, Spans code (s >>= k) a c q y := by
  obtain ⟨y, second⟩ := second
  exact ⟨y, first.andThen second⟩

theorem map {s : Scan α} {f : α → β} (spans : Spans code s a b p x) :
    Spans code (do return f (← s)) a b p (f x) :=
  (spans.bind (k := fun x => Pure.pure (f x)) (pure (f x))).of_iff (iff_of_eq (and_true p))

theorem discard {s : Scan α} (spans : Spans code s a b p x) :
    Spans code (Functor.discard s) a b p () :=
  spans.map (f := fun _ => ())

theorem u8 : Spans code Scan.u8 a (a + 1) True (byteAt code a) where
  forward := Nat.le_succ a
  reads inside _ := by
    have here : byteAt code a = code[a] := List.getD_eq_getElem code 0 inside
    rw [Cursor.at, List.drop_eq_getElem_cons inside, here]
    rfl
  fails _ wrong := by
    have ended : code.drop a = [] := List.drop_eq_nil_of_le (by simpa using wrong)
    rw [Cursor.at, ended]
    rfl

theorem u16 : Spans code Scan.u16 a (a + 2) True (u16At code a) :=
  u8.andThen (u8.map (f := fun b : UInt8 =>
    UInt16.ofNat ((byteAt code a).toNat * 0x100 + b.toNat)))

theorem u32 : Spans code Scan.u32 a (a + 4) True (u32At code a) :=
  u16.andThen (u16.map (f := fun b : UInt16 =>
    UInt32.ofNat ((u16At code a).toNat * 0x10000 + b.toNat)))

theorem i8 : Spans code Scan.i8 a (a + 1) True (byteAt code a).toInt8 :=
  u8.map (f := UInt8.toInt8)

theorem i16 : Spans code Scan.i16 a (a + 2) True (u16At code a).toInt16 :=
  u16.map (f := UInt16.toInt16)

theorem i32 : Spans code Scan.i32 a (a + 4) True (u32At code a).toInt32 :=
  u32.map (f := UInt32.toInt32)

/-- A jump to where there is no address fails, whatever is left of the code. -/
theorem target (position : Nat) (distance : Int32) :
    Spans code (Decoded.target position distance) a a (IsAddress (position + distance.toInt))
      (position + distance.toInt).toNat where
  forward := Nat.le_refl a
  reads _ holds := by
    obtain ⟨above, below⟩ := holds
    rw [Decoded.target, if_neg (by omega)]
    rfl
  fails reached wrong := by
    have outside : ¬ IsAddress (position + distance.toInt) := by
      rcases wrong with short | wrong
      · exact absurd short (Nat.not_lt.mpr reached)
      · exact wrong
    unfold IsAddress at outside
    rw [Decoded.target, if_pos (by omega)]
    rfl

theorem skipPadding : Spans code Decoded.skipPadding (a + 1) (switchStart a) True () := by
  have padding : (4 - (a + 1) % 4) % 4 = switchStart a - (a + 1) := by
    unfold switchStart
    omega
  have ahead : a + 1 ≤ switchStart a := by
    unfold switchStart
    omega
  refine ⟨ahead, fun inside _ => ?_, fun reached wrong => ?_⟩
  · have enough : switchStart a - (a + 1) ≤ code.length - (a + 1) := by omega
    simp [Decoded.skipPadding, Scan.take, Cursor.at, padding, enough, ahead]
  · have short : ¬ switchStart a - (a + 1) ≤ code.length - (a + 1) := by
      have short : code.length < switchStart a := by simpa using wrong
      omega
    simp [Decoded.skipPadding, Scan.take, Cursor.at, padding, short]

/-- The rows of a table of jumps, four bytes each. -/
theorem tableCases (code : Bytes) (a address : Nat) (done : Array (Int32 × Nat)) (key : Int)
    (n : Nat) : ∃ cases, Spans code (Decoded.tableCases address done key n) a (a + 4 * n)
      (∀ i < n, IsAddress (address + i32At code (a + 4 * i))) cases := by
  induction n generalizing a done key with
  | zero => exact ⟨done.toList, (pure _).of_iff (by simp)⟩
  | succ n ih =>
    obtain ⟨cases, later⟩ := ih (a + 4) _ (key + 1)
    rw [show a + 4 + 4 * n = a + 4 * (n + 1) by omega] at later
    refine ⟨cases, (i32.andThen ((target address _).bind later)).of_iff ?_⟩
    rw [Nat.forall_lt_succ_left]
    refine and_congr Iff.rfl (forall₂_congr fun i _ => ?_)
    rw [show a + 4 + 4 * i = a + 4 * (i + 1) by omega]

/-- The rows of keys and jumps, eight bytes each. -/
theorem lookupCases (code : Bytes) (a address : Nat) (done : Array (Int32 × Nat)) (n : Nat) :
    ∃ cases, Spans code (Decoded.lookupCases address done n) a (a + 8 * n)
      (∀ i < n, IsAddress (address + i32At code (a + 8 * i + 4))) cases := by
  induction n generalizing a done with
  | zero => exact ⟨done.toList, (pure _).of_iff (by simp)⟩
  | succ n ih =>
    obtain ⟨cases, later⟩ := ih (a + 8) _
    rw [show a + 8 + 8 * n = a + 8 * (n + 1) by omega] at later
    refine ⟨cases, (i32.andThen (i32.andThen ((target address _).bind later))).of_iff ?_⟩
    rw [Nat.forall_lt_succ_left]
    refine and_congr Iff.rfl (forall₂_congr fun i _ => ?_)
    rw [show a + 8 + 8 * i + 4 = a + 8 * (i + 1) + 4 by omega]

end Scan.Spans

/-- Bytes of an instruction of a format, as far as the opcode decides. -/
def Format.length (op : Opcode) : Format → Nat
  | .bytePush | .byteLoad | .ret | .newArray => 2
  | .access => if Decoded.isLongAccess op then 2 else 1
  | .shortPush | .shortLoad | .increment | .branch | .member | .cls => 3
  | .multiNewArray => 4
  | .farBranch | .interface | .dynamic => 5
  | .wide | .table | .lookup | .plain | .unknown => 1

/-- What the length and the jumps of an instruction go by is its format. -/
theorem Format.ofOpcode_fits (op : Opcode) :
    (op = Opcode.wide ↔ ofOpcode op = .wide) ∧
    (op = Opcode.tableswitch ↔ ofOpcode op = .table) ∧
    (op = Opcode.lookupswitch ↔ ofOpcode op = .lookup) ∧
    (op.jumpsNear ↔ ofOpcode op = .branch) ∧ (op.jumpsFar ↔ ofOpcode op = .farBranch) ∧
    op.length = (ofOpcode op).length op ∧
    (ofOpcode op = .access →
      (LocalKind.ofLocalOpcode? op).map (·.2.isSome) = some !Decoded.isLongAccess op) := by
  revert op
  exact Opcode.forall_of_decide (by decide +kernel)

namespace Scan.Spans

variable {code : Bytes} {a : Nat} {i : Decoded}

/-- An instruction that does not jump, and whose opcode decides how long it is. -/
theorem straight {s : Scan Decoded} {form : Format}
    (format : Format.ofOpcode (byteAt code a) = form)
    (spans : Spans code s (a + 1) (a + form.length (byteAt code a)) True i)
    (plain : form ∉ [Format.wide, .table, .lookup, .branch, .farBranch] := by decide) :
    Spans code s (a + 1) (instructionEnd code a) (∀ t ∈ jumpsAt code a, IsAddress t) i := by
  obtain ⟨wide, table, lookup, near, far, length, -⟩ := Format.ofOpcode_fits (byteAt code a)
  rw [format] at wide table lookup near far length
  simp only [List.mem_cons, List.not_mem_nil, or_false, not_or] at plain
  obtain ⟨notWide, notTable, notLookup, notNear, notFar⟩ := plain
  have stop : instructionEnd code a = a + form.length (byteAt code a) := by
    rw [instructionEnd, if_neg (mt wide.mp notWide), if_neg (mt table.mp notTable),
      if_neg (mt lookup.mp notLookup), length]
  have none : jumpsAt code a = [] := by
    rw [jumpsAt, if_neg (mt near.mp notNear), if_neg (mt far.mp notFar),
      if_neg (mt table.mp notTable), if_neg (mt lookup.mp notLookup)]
  rw [stop, none]
  exact spans.of_iff (by simp)

theorem accessOperand (format : Format.ofOpcode (byteAt code a) = .access) :
    ∃ i, Spans code (Decoded.accessOperand (byteAt code a)) (a + 1)
      (a + Format.access.length (byteAt code a)) True i := by
  obtain ⟨-, -, -, -, -, -, kinds⟩ := Format.ofOpcode_fits (byteAt code a)
  have kinds := kinds format
  unfold Decoded.accessOperand Format.length
  rcases kind : LocalKind.ofLocalOpcode? (byteAt code a) with - | ⟨kind, - | slot⟩
  · rw [kind] at kinds
    cases kinds
  · rw [kind] at kinds
    have long : Decoded.isLongAccess (byteAt code a) = true := by simpa using kinds.symm
    rw [long]
    exact ⟨_, u8.map⟩
  · rw [kind] at kinds
    have short : Decoded.isLongAccess (byteAt code a) = false := by simpa using kinds.symm
    rw [short]
    exact ⟨_, pure _⟩

theorem wideOperand (op : byteAt code a = Opcode.wide) :
    ∃ i, Spans code Decoded.wideOperand (a + 1) (instructionEnd code a) True i := by
  rw [instructionEnd, if_pos op]
  by_cases increments : byteAt code (a + 1) = Opcode.iinc
  · rw [if_pos increments]
    refine exists_andThen u8 (exists_andThen u16 ?_)
    rw [if_pos increments]
    exact ⟨_, i16.map⟩
  · rw [if_neg increments]
    refine exists_andThen u8 (exists_andThen u16 ?_)
    rw [if_neg increments]
    by_cases returns : byteAt code (a + 1) = Opcode.ret
    · rw [if_pos returns]
      exact ⟨_, pure _⟩
    · rw [if_neg returns]
      by_cases long : Decoded.isLongAccess (byteAt code (a + 1)) = true
      · rw [if_pos long]
        rcases LocalKind.ofLocalOpcode? (byteAt code (a + 1)) with - | ⟨kind, -⟩
        · exact ⟨_, pure _⟩
        · exact ⟨_, pure _⟩
      · rw [if_neg long]
        exact ⟨_, pure _⟩

/-- The jumps of a switch: the default, and one for each row. -/
theorem forall_mem_rows {first : Int} {n : Nat} {row : Nat → Int} :
    (IsAddress first ∧ ∀ i < n, IsAddress (row i)) ↔
      ∀ t ∈ first :: (List.range n).map row, IsAddress t := by
  simp

theorem tableOperand (op : byteAt code a = Opcode.tableswitch) :
    ∃ i, Spans code (Decoded.tableOperand a) (a + 1) (instructionEnd code a)
      (∀ t ∈ jumpsAt code a, IsAddress t) i := by
  obtain ⟨cases, rows⟩ := tableCases code (switchStart a + 12) a #[]
    (i32At code (switchStart a + 4)) (tableRows code a)
  have spans : Spans code (Decoded.tableOperand a) _ _ _ _ :=
    skipPadding.andThen (i32.andThen ((target a _).bind (i32.andThen (i32.andThen rows.map))))
  have stop : instructionEnd code a = switchStart a + 12 + 4 * tableRows code a := by
    rw [instructionEnd, op]
    rfl
  have jumps : jumpsAt code a = (a + i32At code (switchStart a)) ::
      (List.range (tableRows code a)).map fun i => a + i32At code (switchStart a + 12 + 4 * i) := by
    rw [jumpsAt, op]
    rfl
  rw [stop, jumps]
  exact ⟨_, spans.of_iff forall_mem_rows⟩

theorem lookupOperand (op : byteAt code a = Opcode.lookupswitch) :
    ∃ i, Spans code (Decoded.lookupOperand a) (a + 1) (instructionEnd code a)
      (∀ t ∈ jumpsAt code a, IsAddress t) i := by
  obtain ⟨cases, rows⟩ := lookupCases code (switchStart a + 8) a #[]
    (lookupRows code a)
  have spans : Spans code (Decoded.lookupOperand a) _ _ _ _ :=
    skipPadding.andThen (i32.andThen ((target a _).bind (i32.andThen rows.map)))
  have stop : instructionEnd code a = switchStart a + 8 + 8 * lookupRows code a := by
    rw [instructionEnd, op]
    rfl
  have jumps : jumpsAt code a = (a + i32At code (switchStart a)) ::
      (List.range (lookupRows code a)).map fun i =>
        a + i32At code (switchStart a + 8 + 8 * i + 4) := by
    rw [jumpsAt, op]
    rfl
  rw [stop, jumps]
  exact ⟨_, spans.of_iff forall_mem_rows⟩

/-- A near or far jump: a distance, and nothing behind it. -/
theorem jump {α : Type} {s : Scan α} {f : α → Int32} {x : α} {form : Format} {n : Nat}
    (format : Format.ofOpcode (byteAt code a) = form)
    (width : form.length (byteAt code a) = 1 + n)
    (reads : Spans code s (a + 1) (a + 1 + n) True x)
    (jumps : jumpsAt code a = [a + (f x).toInt])
    (plain : form ∉ [Format.wide, .table, .lookup] := by decide) :
    ∃ i, Spans code (do return Decoded.branch (byteAt code a) (← Decoded.target a (f (← s))))
      (a + 1) (instructionEnd code a) (∀ t ∈ jumpsAt code a, IsAddress t) i := by
  obtain ⟨wide, table, lookup, -, -, length, -⟩ := Format.ofOpcode_fits (byteAt code a)
  rw [format] at wide table lookup length
  simp only [List.mem_cons, List.not_mem_nil, or_false, not_or] at plain
  have stop : instructionEnd code a = a + 1 + n := by
    rw [instructionEnd, if_neg (mt wide.mp plain.1), if_neg (mt table.mp plain.2.1),
      if_neg (mt lookup.mp plain.2.2), length, width, Nat.add_assoc]
  rw [stop, jumps]
  refine exists_andThen reads ⟨_, ((target a (f x)).map).of_iff ?_⟩
  simp

/-- The operands of the instruction at a position, and the whole of it. -/
theorem operands (code : Bytes) (a : Nat) :
    ∃ i, Spans code (Decoded.operands a (byteAt code a)) (a + 1) (instructionEnd code a)
      (∀ t ∈ jumpsAt code a, IsAddress t) i := by
  obtain ⟨wide, table, lookup, near, far, -⟩ := Format.ofOpcode_fits (byteAt code a)
  rw [Format.operands_ofOpcode]
  cases format : Format.ofOpcode (byteAt code a) with
  | bytePush => exact ⟨_, straight format i8.map⟩
  | shortPush => exact ⟨_, straight format i16.map⟩
  | byteLoad => exact ⟨_, straight format u8.map⟩
  | shortLoad => exact ⟨_, straight format u16.map⟩
  | access =>
    obtain ⟨i, spans⟩ := accessOperand format
    exact ⟨i, straight format spans⟩
  | increment => exact ⟨_, straight format (u8.andThen i8.map)⟩
  | ret => exact ⟨_, straight format u8.map⟩
  | wide =>
    obtain ⟨i, spans⟩ := wideOperand (wide.mpr format)
    have none : jumpsAt code a = [] := by
      rw [jumpsAt, wide.mpr format]
      rfl
    exact ⟨i, spans.of_iff (by simp [none])⟩
  | branch =>
    refine jump format rfl i16 ?_
    rw [jumpsAt, if_pos (near.mpr format), Int16.toInt_toInt32]
    rfl
  | farBranch =>
    have notNear : ¬ Opcode.jumpsNear (byteAt code a) := by
      rw [near, format]
      decide
    refine jump (f := id) format rfl i32 ?_
    rw [jumpsAt, if_neg notNear, if_pos (far.mpr format)]
    rfl
  | table => exact tableOperand (table.mpr format)
  | lookup => exact lookupOperand (lookup.mpr format)
  | member => exact ⟨_, straight format u16.map⟩
  | interface => exact ⟨_, straight format (u16.andThen (u16.discard.map))⟩
  | dynamic => exact ⟨_, straight format u32.discard.map⟩
  | cls => exact ⟨_, straight format u16.map⟩
  | newArray => exact ⟨_, straight format u8.map⟩
  | multiNewArray => exact ⟨_, straight format (u16.andThen u8.map)⟩
  | plain => exact ⟨_, straight format (pure _)⟩
  | unknown => exact ⟨_, straight format (pure _)⟩

theorem read (code : Bytes) (a : Nat) : ∃ i,
    Spans code Decoded.read a (instructionEnd code a) (∀ t ∈ jumpsAt code a, IsAddress t) i := by
  obtain ⟨i, spans⟩ := operands code a
  have whole : Spans code (Scan.u8 >>= Decoded.operands a) a _ _ i := u8.andThen spans
  exact ⟨i, ⟨whole.forward, whole.reads, whole.fails⟩⟩

end Scan.Spans

/-- The listed instruction is the one that stands at a position, all of it. -/
structure Listed.StandsAt (code : Bytes) (a : Nat) (x : Listed) : Prop where
  start_eq : x.start = addressOf a
  read : Decoded.read (.at code a) = some (x.instruction, .at code x.stop)
  stop_eq : x.stop = instructionEnd code a
  stop_le : x.stop ≤ code.length
  stays : ∀ t ∈ jumpsAt code a, IsAddress t

/-- Instructions one behind the other, none of them empty, from one position to another. -/
def Tiles (code : Bytes) : Nat → List Listed → Nat → Prop
  | a, [], stop => a = stop
  | a, x :: xs, stop => x.StandsAt code a ∧ a < x.stop ∧ Tiles code x.stop xs stop

theorem Tiles.length_le {code : Bytes} {a stop : Nat} {listed : List Listed}
    (tiles : Tiles code a listed stop) : a + listed.length ≤ stop := by
  induction listed generalizing a with
  | nil => exact Nat.le_of_eq tiles
  | cons x listed ih =>
    obtain ⟨-, nonempty, later⟩ := tiles
    have := ih later
    rw [List.length_cons]
    omega

namespace Decoded

variable {code : Bytes} {a : Nat}

end Decoded

namespace Listing

end Listing

end JvmAssembly
