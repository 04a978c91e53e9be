import JvmAssembly.Binary.Cursor
import JvmAssembly.Kind

/-!
The instructions of a piece of code, each with the bytes it takes up. Operands are read but not
looked up, and jumps go to addresses.

Decoding goes on past an instruction that it does not know, and stops at one that is cut off or
jumps to where there is no address.
-/
namespace JvmAssembly

/-- Addresses are words of 32 bits. -/
def addressOf (position : Nat) : Nat := position % 4294967296

inductive Decoded where
  /-- An opcode without operands. -/
  | simple (opcode : Opcode)
  | push (value : Int16)
  | ldc (index : UInt16)
  | access (kind : LocalKind) (slot : UInt16) (isStore : Bool)
  | increment (slot : UInt16) (amount : Int16)
  | ret (slot : UInt16)
  /-- Access to a field, or a call. -/
  | member (opcode : Opcode) (index : UInt16)
  /-- An instruction about a class. -/
  | cls (opcode : Opcode) (index : UInt16)
  | newArray (code : UInt8)
  | multiNewArray (index : UInt16) (dimensions : UInt8)
  | branch (opcode : Opcode) (target : Nat)
  | switch (default : Nat) (cases : List (Int32 × Nat))
  | unsupported
deriving DecidableEq, Repr

namespace Decoded

def targets : Decoded → List Nat
  | .branch _ target => [target]
  | .switch default cases => default :: cases.map (·.2)
  | _ => []

/-- The address at a distance from an instruction, if it is a word. -/
def target (position : Nat) (distance : Int32) : Scan Nat :=
  let n := (position : Int) + distance.toInt
  if n < 0 ∨ 4294967296 ≤ n then failure else return n.toNat

def skipPadding : Scan Unit := fun c =>
  (Scan.take ((4 - c.position % 4) % 4) c).map fun r => ((), r.2)

def tableCases (address : Nat) (done : Array (Int32 × Nat)) (key : Int) :
    Nat → Scan (List (Int32 × Nat))
  | 0 => return done.toList
  | n + 1 => do
    let target ← target address (← Scan.i32)
    tableCases address (done.push (Int32.ofInt key, target)) (key + 1) n

def lookupCases (address : Nat) (done : Array (Int32 × Nat)) : Nat → Scan (List (Int32 × Nat))
  | 0 => return done.toList
  | n + 1 => do
    let key ← Scan.i32
    let target ← target address (← Scan.i32)
    lookupCases address (done.push (key, target)) n

def isAccess (opcode : Opcode) : Bool :=
  (Opcode.iload ≤ opcode && opcode ≤ Opcode.aload_3) ||
    (Opcode.istore ≤ opcode && opcode ≤ Opcode.astore_3)

def isLongAccess (opcode : Opcode) : Bool :=
  (Opcode.iload ≤ opcode && opcode ≤ Opcode.aload) ||
    (Opcode.istore ≤ opcode && opcode ≤ Opcode.astore)

def accessOperand (opcode : Opcode) : Scan Decoded :=
  let isStore := decide (Opcode.istore ≤ opcode)
  match LocalKind.ofLocalOpcode? opcode with
  | some (kind, some slot) => return .access kind slot.toUInt16 isStore
  | some (kind, none) => return .access kind (← Scan.u8).toUInt16 isStore
  | none => return .unsupported

def wideOperand : Scan Decoded := do
  let opcode ← Scan.u8
  let slot ← Scan.u16
  if opcode = Opcode.iinc then return .increment slot (← Scan.i16)
  else if opcode = Opcode.ret then return .ret slot
  else if isLongAccess opcode then
    match LocalKind.ofLocalOpcode? opcode with
    | some (kind, _) => return .access kind slot (decide (Opcode.istore ≤ opcode))
    | none => return .unsupported
  else return .unsupported

def tableOperand (address : Nat) : Scan Decoded := do
  skipPadding
  let default ← target address (← Scan.i32)
  let low ← Scan.i32
  let high ← Scan.i32
  return .switch default
    (← tableCases address #[] low.toInt (high.toInt - low.toInt + 1).toNat)

def lookupOperand (address : Nat) : Scan Decoded := do
  skipPadding
  let default ← target address (← Scan.i32)
  let pairs ← Scan.i32
  return .switch default (← lookupCases address #[] pairs.toInt.toNat)

def operands (address : Nat) (opcode : Opcode) : Scan Decoded := do
  if opcode = Opcode.bipush then return .push (← Scan.i8).toInt16
  else if opcode = Opcode.sipush then return .push (← Scan.i16)
  else if opcode = Opcode.ldc then return .ldc (← Scan.u8).toUInt16
  else if opcode = Opcode.ldc_w ∨ opcode = Opcode.ldc2_w then return .ldc (← Scan.u16)
  else if isAccess opcode then accessOperand opcode
  else if opcode = Opcode.iinc then
    return .increment (← Scan.u8).toUInt16 (← Scan.i8).toInt16
  else if opcode = Opcode.ret then return .ret (← Scan.u8).toUInt16
  else if opcode = Opcode.wide then wideOperand
  else if (Opcode.ifeq ≤ opcode ∧ opcode ≤ Opcode.jsr) ∨ opcode = Opcode.ifnull ∨
      opcode = Opcode.ifnonnull then
    return .branch opcode (← target address (← Scan.i16).toInt32)
  else if opcode = Opcode.goto_w ∨ opcode = Opcode.jsr_w then
    return .branch opcode (← target address (← Scan.i32))
  else if opcode = Opcode.tableswitch then tableOperand address
  else if opcode = Opcode.lookupswitch then lookupOperand address
  else if Opcode.getstatic ≤ opcode ∧ opcode ≤ Opcode.invokestatic then
    return .member opcode (← Scan.u16)
  else if opcode = Opcode.invokeinterface then
    let index ← Scan.u16
    discard Scan.u16
    return .member opcode index
  else if opcode = Opcode.invokedynamic then
    discard Scan.u32
    return .unsupported
  else if opcode = Opcode.new ∨ opcode = Opcode.anewarray ∨ opcode = Opcode.checkcast ∨
      opcode = Opcode.instanceof then
    return .cls opcode (← Scan.u16)
  else if opcode = Opcode.newarray then return .newArray (← Scan.u8)
  else if opcode = Opcode.multianewarray then
    return .multiNewArray (← Scan.u16) (← Scan.u8)
  else if (opcode.mnemonic).isSome then return .simple opcode
  else return .unsupported

def read : Scan Decoded := fun c =>
  (do operands c.position (← Scan.u8) : Scan Decoded) c

end Decoded

/-- A scan takes bytes off the front and counts them. -/
def Scan.Advances {α : Type} (s : Scan α) : Prop :=
  ∀ c a c', s c = some (a, c') →
    ∃ taken, c.rest = taken ++ c'.rest ∧ c'.position = c.position + taken.length

namespace Scan.Advances

variable {α β : Type}

theorem pure (a : α) : Scan.Advances (Pure.pure a : Scan α) := by
  rintro c b c' h
  have h : some (a, c) = some (b, c') := h
  cases h
  exact ⟨[], by simp⟩

theorem bind {s : Scan α} {k : α → Scan β} (hs : s.Advances) (hk : ∀ a, (k a).Advances) :
    Scan.Advances (s >>= k) := by
  rintro c b c' h
  obtain ⟨⟨a, m⟩, hm, h⟩ : ∃ r, s c = some r ∧ k r.1 r.2 = some (b, c') := by
    simpa [Bind.bind, StateT.bind, Option.bind_eq_some_iff] using h
  obtain ⟨x, hx, px⟩ := hs _ _ _ hm
  obtain ⟨y, hy, py⟩ := hk a _ _ _ h
  exact ⟨x ++ y, by simpa [hx] using hy, by simp [py, px]; omega⟩

theorem fail : Scan.Advances (failure : Scan α) := by
  rintro c b c' h
  simp [failure, StateT.failure, Alternative.failure] at h

theorem ite {p : Prop} [Decidable p] {s t : Scan α} (hs : s.Advances) (ht : t.Advances) :
    Scan.Advances (if p then s else t) := by
  split <;> assumption

theorem u8 : Scan.u8.Advances := by
  rintro ⟨position, rest⟩ b c' h
  cases rest with
  | nil => simp [Scan.u8] at h
  | cons x rest =>
    obtain ⟨rfl, rfl⟩ := by simpa [Scan.u8] using h
    exact ⟨[x], by simp⟩

theorem u16 : Scan.u16.Advances := bind u8 fun _ => bind u8 fun _ => pure _

theorem u32 : Scan.u32.Advances := bind u16 fun _ => bind u16 fun _ => pure _

theorem i8 : Scan.i8.Advances := bind u8 fun _ => pure _

theorem i16 : Scan.i16.Advances := bind u16 fun _ => pure _

theorem i32 : Scan.i32.Advances := bind u32 fun _ => pure _

theorem take (n : Nat) : (Scan.take n).Advances := by
  rintro ⟨position, rest⟩ b c' h
  simp only [Scan.take, List.splitAt_eq] at h
  split at h
  · obtain ⟨rfl, rfl⟩ := by simpa using h
    exact ⟨rest.take n, by simp, by simp_all⟩
  · simp at h

theorem target (address : Nat) (distance : Int32) :
    (Decoded.target address distance).Advances := by
  unfold Decoded.target
  dsimp only
  split
  · exact fail
  · exact pure _

theorem skipPadding : Decoded.skipPadding.Advances := by
  rintro c a c' h
  obtain ⟨⟨b, m⟩, hm, rfl⟩ : ∃ r, Scan.take ((4 - c.position % 4) % 4) c = some r ∧ r.2 = c' := by
    simpa [Decoded.skipPadding] using h
  exact take _ _ _ _ hm

theorem tableCases (address : Nat) (done : Array (Int32 × Nat)) (key : Int) (n : Nat) :
    (Decoded.tableCases address done key n).Advances := by
  induction n generalizing done key with
  | zero => exact pure _
  | succ n ih => exact bind i32 fun _ => bind (target _ _) fun _ => ih _ _

theorem lookupCases (address : Nat) (done : Array (Int32 × Nat)) (n : Nat) :
    (Decoded.lookupCases address done n).Advances := by
  induction n generalizing done with
  | zero => exact pure _
  | succ n ih => exact bind i32 fun _ => bind i32 fun _ => bind (target _ _) fun _ => ih _

theorem accessOperand (opcode : Opcode) : (Decoded.accessOperand opcode).Advances := by
  unfold Decoded.accessOperand
  dsimp only
  split
  · exact pure _
  · exact bind u8 fun _ => pure _
  · exact pure _

theorem wideOperand : Decoded.wideOperand.Advances := by
  refine bind u8 fun opcode => bind u16 fun slot => ?_
  split
  · exact bind i16 fun _ => pure _
  split
  · exact pure _
  split
  · split <;> exact pure _
  · exact pure _

theorem tableOperand (address : Nat) : (Decoded.tableOperand address).Advances :=
  bind skipPadding fun _ => bind i32 fun _ => bind (target _ _) fun _ => bind i32 fun _ =>
    bind i32 fun _ => bind (tableCases _ _ _ _) fun _ => pure _

theorem lookupOperand (address : Nat) : (Decoded.lookupOperand address).Advances :=
  bind skipPadding fun _ => bind i32 fun _ => bind (target _ _) fun _ => bind i32 fun _ =>
    bind (lookupCases _ _ _) fun _ => pure _

theorem operands (address : Nat) (opcode : Opcode) :
    (Decoded.operands address opcode).Advances :=
  ite (bind i8 fun _ => pure _) <|
  ite (bind i16 fun _ => pure _) <|
  ite (bind u8 fun _ => pure _) <|
  ite (bind u16 fun _ => pure _) <|
  ite (accessOperand _) <|
  ite (bind u8 fun _ => bind i8 fun _ => pure _) <|
  ite (bind u8 fun _ => pure _) <|
  ite wideOperand <|
  ite (bind i16 fun _ => bind (target _ _) fun _ => pure _) <|
  ite (bind i32 fun _ => bind (target _ _) fun _ => pure _) <|
  ite (tableOperand _) <|
  ite (lookupOperand _) <|
  ite (bind u16 fun _ => pure _) <|
  ite (bind u16 fun _ => bind (bind u16 fun _ => pure _) fun _ => pure _) <|
  ite (bind (bind u32 fun _ => pure _) fun _ => pure _) <|
  ite (bind u16 fun _ => pure _) <|
  ite (bind u8 fun _ => pure _) <|
  ite (bind u16 fun _ => bind u8 fun _ => pure _) <|
  ite (pure _) (pure _)

end Scan.Advances

theorem Decoded.length_rest_lt_of_read {c c' : Cursor} {i : Decoded}
    (h : Decoded.read c = some (i, c')) : c'.rest.length < c.rest.length := by
  obtain ⟨position, rest⟩ := c
  cases rest with
  | nil => simp [Decoded.read, Bind.bind, StateT.bind, Scan.u8] at h
  | cons b rest =>
    have h : Decoded.operands position b ⟨position + 1, rest⟩ = some (i, c') := by
      simpa [Decoded.read, Bind.bind, StateT.bind, Scan.u8] using h
    obtain ⟨taken, hr, -⟩ := Scan.Advances.operands _ _ _ _ _ h
    simp only [List.length_cons]
    have := congrArg List.length hr
    simp only [List.length_append] at this
    omega

/-- An instruction with its address and the position behind it. -/
structure Listed where
  start : Nat
  stop : Nat
  instruction : Decoded
deriving DecidableEq, Repr

structure Report where
  address : Nat
  opcode : Opcode
deriving DecidableEq, Repr

structure Listing where
  instructions : List Listed
  reports : List Report
deriving DecidableEq, Repr

namespace Listing

def decodeFrom (code : Array UInt8) (instructions : Array Listed) (reports : Array Report)
    (c : Cursor) : Listing :=
  if c.rest.isEmpty then ⟨instructions.toList, reports.toList⟩
  else
    let address := addressOf c.position
    let report := ⟨address, code.getD address 0⟩
    match _h : Decoded.read c with
    | none => ⟨instructions.toList, (reports.push report).toList⟩
    | some (i, c') =>
      let reports := if i = .unsupported then reports.push report else reports
      decodeFrom code (instructions.push ⟨address, c'.position, i⟩) reports c'
termination_by c.rest.length
decreasing_by exact Decoded.length_rest_lt_of_read _h

def decode (code : Bytes) : Listing := decodeFrom code.toArray #[] #[] (Cursor.start code)

def returnSlots (l : Listing) : List UInt16 :=
  l.instructions.filterMap fun i =>
    match i.instruction with
    | .ret slot => some slot
    | _ => none

end Listing

end JvmAssembly
