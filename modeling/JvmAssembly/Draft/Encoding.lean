import JvmAssembly.Binary.Word
import JvmAssembly.Draft.Basic
import JvmAssembly.Pool.Basic

/-!
Bytes of single instructions. Where a node stands is known from earlier: jumps are written as
distances between offsets, and a target without an offset yet leaves zeros to be filled in.
-/
namespace JvmAssembly

abbrev Offsets := Array (Option Nat)

def Offsets.of? (offsets : Offsets) (node : NodeId) : Option Nat :=
  match offsets[node]? with
  | some offset => offset
  | none => none

inductive Encoding where
  /-- The bytes; not settled if some target has no offset yet. -/
  | bytes (code : Bytes) (settled : Bool)
  /-- A distance that sixteen bits cannot hold. -/
  | tooFar (opcode : Opcode) (target : Label) (distance : Int)

namespace Encoding

def fixed (code : Bytes) : Encoding := .bytes code true

def localAccess (slot : UInt16) (opcode : Opcode) (short : UInt8 → Opcode) : Bytes :=
  if slot ≤ 3 then [short slot.toUInt8]
  else if slot ≤ 255 then [opcode, slot.toUInt8]
  else Opcode.wide :: opcode :: be16 slot

def fitsByte (n : Int16) : Bool := -128 ≤ n && n ≤ 127

def increment (slot : UInt16) (amount : Int16) : Bytes :=
  if slot ≤ 255 && fitsByte amount then
    [Opcode.iinc, slot.toUInt8, amount.toInt8.toUInt8]
  else Opcode.wide :: Opcode.iinc :: (be16 slot ++ be16 amount.toUInt16)

def ret (slot : UInt16) : Bytes :=
  if slot ≤ 255 then [Opcode.ret, slot.toUInt8]
  else Opcode.wide :: Opcode.ret :: be16 slot

/-- Loads of constants take one byte of index where it fits. -/
def constant (opcode : Opcode) (index : UInt16) : Bytes :=
  if opcode == Opcode.ldc || opcode == Opcode.ldc_w then
    if index ≤ 255 then [Opcode.ldc, index.toUInt8] else Opcode.ldc_w :: be16 index
  else opcode :: be16 index

def branch (offsets : Offsets) (offset : Nat) (opcode : Opcode) (target : Label) : Encoding :=
  match offsets.of? target.node with
  | none => .bytes (opcode :: List.replicate (if opcode.isFar then 4 else 2) 0) false
  | some there =>
    let distance : Int := (there : Int) - offset
    if opcode.isFar then fixed (opcode :: be32OfInt distance)
    else if -32768 ≤ distance ∧ distance ≤ 32767 then
      fixed (opcode :: be16 (Int16.ofInt distance).toUInt16)
    else .tooFar opcode target distance

/-- Labels of a table: `n` keys from `key` on, the default where no case has the key. -/
def tableLabels (default : Label) (done : Array Label) :
    Nat → Int → List (Int32 × Label) → List Label
  | 0, _, _ => done.toList
  | n + 1, key, [] => tableLabels default (done.push default) n (key + 1) []
  | n + 1, key, c :: cs =>
    if c.1.toInt = key then tableLabels default (done.push c.2) n (key + 1) cs
    else tableLabels default (done.push default) n (key + 1) (c :: cs)

/-- The distance from `offset` to a label, zero if the label has no offset yet. -/
def jump (offsets : Offsets) (offset : Nat) (label : Label) : Bytes :=
  match offsets.of? label.node with
  | some there => be32OfInt ((there : Int) - offset)
  | none => be32OfInt 0

/-- Zeros after the opcode of a switch, up to a multiple of four from the start of the method. -/
def padding (offset : Nat) : Bytes := List.replicate (3 - offset % 4) 0

def switchTable (offsets : Offsets) (offset : Nat) (default : Label)
    (cases : List (Int32 × Label)) (low high : Int32) : Bytes :=
  let labels := tableLabels default #[] (high.toInt - low.toInt + 1).toNat low.toInt cases
  Opcode.tableswitch :: padding offset ++ jump offsets offset default ++ be32 low.toUInt32 ++
    be32 high.toUInt32 ++ labels.flatMap (jump offsets offset)

def switchList (offsets : Offsets) (offset : Nat) (default : Label)
    (cases : List (Int32 × Label)) : Bytes :=
  Opcode.lookupswitch :: padding offset ++ jump offsets offset default ++
    be32 (UInt32.ofNat cases.length) ++
    cases.flatMap fun c => be32 c.1.toUInt32 ++ jump offsets offset c.2

/-- A switch; one without cases has no table. -/
def switch (offsets : Offsets) (offset : Nat) (default : Label) (cases : List (Int32 × Label))
    (table : Bool) : Encoding :=
  let known (label : Label) : Bool := (offsets.of? label.node).isSome
  let settled := known default && cases.all fun c => known c.2
  match table, cases.head?, cases.getLast? with
  | true, some (low, _), some (high, _) =>
    .bytes (switchTable offsets offset default cases low high) settled
  | _, _, _ => .bytes (switchList offsets offset default cases) settled

end Encoding

namespace Draft

def slotOf (d : Draft) (v : Local) : Except Fault UInt16 :=
  match d.locals[v.index]? with
  | some ⟨_, _, _, some slot⟩ => .ok slot
  | _ => .error (.unassignedLocal v)

def encode (d : Draft) (pool : Pool) (offsets : Offsets) (offset : Nat) (i : Instruction) :
    Except Fault Encoding :=
  match i with
  | .label => .ok (.fixed [])
  | .simple op => .ok (.fixed [op])
  | .immediate op operand =>
    if op == Opcode.sipush then .ok (.fixed (op :: be16 operand.toUInt16))
    else .ok (.fixed [op, operand.toInt8.toUInt8])
  | .constant op entry _ => return .fixed (Encoding.constant op (← pool.indexOf entry))
  | .invoke op entry _ slots => do
    let index ← pool.indexOf entry
    return .fixed (op :: be16 index ++
      if op == Opcode.invokeinterface then [slots, 0] else [])
  | .multiNewArray entry dimensions =>
    return .fixed (Opcode.multianewarray :: be16 (← pool.indexOf entry) ++ [dimensions])
  | .load source kind =>
    return .fixed (Encoding.localAccess (← d.slotOf source) kind.loadOpcode kind.shortLoadOpcode)
  | .store _ kind true =>
    .ok (.fixed [if kind.width = 2 then Opcode.pop2 else Opcode.pop])
  | .store target kind false =>
    return .fixed (Encoding.localAccess (← d.slotOf target) kind.storeOpcode kind.shortStoreOpcode)
  | .increment target amount => return .fixed (Encoding.increment (← d.slotOf target) amount)
  | .ret source => return .fixed (Encoding.ret (← d.slotOf source))
  | .branch op target => .ok (Encoding.branch offsets offset op target)
  | .switch default cases table => .ok (Encoding.switch offsets offset default cases table)

end Draft

end JvmAssembly
