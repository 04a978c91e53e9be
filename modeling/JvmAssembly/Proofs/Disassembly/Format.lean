import Mathlib
import JvmAssembly.Disassembly.Listing
import JvmAssembly.Proofs.Binary
import JvmAssembly.Proofs.Opcode

/-!
Operand formats of opcodes. The decoder finds the format of an opcode by a chain of tests; here the
format stands on its own, and what the decoder does is a function of it.
-/
namespace JvmAssembly

/-- In code that is not too long, addresses are positions. -/
theorem addressOf_of_le {position : Nat} (short : position ≤ 65535) :
    addressOf position = position :=
  Nat.mod_eq_of_lt (Nat.lt_of_le_of_lt short (by decide))

/-- How the operands of an opcode are laid out. -/
inductive Format where
  | bytePush | shortPush | byteLoad | shortLoad | access | increment | ret | wide
  | branch | farBranch | table | lookup | member | interface | dynamic | cls
  | newArray | multiNewArray | plain | unknown
deriving DecidableEq

namespace Format

def ofOpcode (op : Opcode) : Format :=
  if op = Opcode.bipush then .bytePush
  else if op = Opcode.sipush then .shortPush
  else if op = Opcode.ldc then .byteLoad
  else if op = Opcode.ldc_w ∨ op = Opcode.ldc2_w then .shortLoad
  else if Decoded.isAccess op then .access
  else if op = Opcode.iinc then .increment
  else if op = Opcode.ret then .ret
  else if op = Opcode.wide then .wide
  else if (Opcode.ifeq ≤ op ∧ op ≤ Opcode.jsr) ∨ op = Opcode.ifnull ∨ op = Opcode.ifnonnull then
    .branch
  else if op = Opcode.goto_w ∨ op = Opcode.jsr_w then .farBranch
  else if op = Opcode.tableswitch then .table
  else if op = Opcode.lookupswitch then .lookup
  else if Opcode.getstatic ≤ op ∧ op ≤ Opcode.invokestatic then .member
  else if op = Opcode.invokeinterface then .interface
  else if op = Opcode.invokedynamic then .dynamic
  else if op = Opcode.new ∨ op = Opcode.anewarray ∨ op = Opcode.checkcast ∨
      op = Opcode.instanceof then .cls
  else if op = Opcode.newarray then .newArray
  else if op = Opcode.multianewarray then .multiNewArray
  else if op.mnemonic.isSome then .plain
  else .unknown

/-- Reads operands of a format. -/
def operands (address : Nat) (op : Opcode) : Format → Scan Decoded
  | .bytePush => do return .push (← Scan.i8).toInt16
  | .shortPush => do return .push (← Scan.i16)
  | .byteLoad => do return .ldc (← Scan.u8).toUInt16
  | .shortLoad => do return .ldc (← Scan.u16)
  | .access => Decoded.accessOperand op
  | .increment => do return .increment (← Scan.u8).toUInt16 (← Scan.i8).toInt16
  | .ret => do return .ret (← Scan.u8).toUInt16
  | .wide => Decoded.wideOperand
  | .branch => do return .branch op (← Decoded.target address (← Scan.i16).toInt32)
  | .farBranch => do return .branch op (← Decoded.target address (← Scan.i32))
  | .table => Decoded.tableOperand address
  | .lookup => Decoded.lookupOperand address
  | .member => do return .member op (← Scan.u16)
  | .interface => do
    let index ← Scan.u16
    discard Scan.u16
    return .member op index
  | .dynamic => do
    discard Scan.u32
    return .unsupported
  | .cls => do return .cls op (← Scan.u16)
  | .newArray => do return .newArray (← Scan.u8)
  | .multiNewArray => do return .multiNewArray (← Scan.u16) (← Scan.u8)
  | .plain => return .simple op
  | .unknown => return .unsupported

theorem operands_ofOpcode (address : Nat) (op : Opcode) :
    Decoded.operands address op = (ofOpcode op).operands address op := by
  simp only [ofOpcode, apply_ite (Format.operands address op)]
  rfl

end Format

/-- An instruction is read as its opcode and then the operands of that opcode's format. -/
theorem Decoded.readsAt_read {position : Nat} {op : Opcode} {form : Format} {bytes : Bytes}
    {i : Decoded} (format : Format.ofOpcode op = form)
    (h : Scan.ReadsAt (position + 1) (form.operands position op) bytes i) :
    Scan.ReadsAt position Decoded.read (op :: bytes) i := by
  rw [← format, ← Format.operands_ofOpcode] at h
  intro rest
  rw [List.length_cons, Nat.add_comm bytes.length, ← Nat.add_assoc]
  exact h rest

end JvmAssembly
