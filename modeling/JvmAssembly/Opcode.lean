/-!
The instruction set by number: mnemonics, and the few facts about opcodes that hold across
families. Opcodes stay plain bytes, because code read from a file may hold any byte.
-/
namespace JvmAssembly

abbrev Opcode := UInt8

namespace Opcode

/-- Mnemonics by opcode; bytes past the end of the table are no instructions. -/
def mnemonics : Array String := #[
  "nop", "aconst_null", "iconst_m1", "iconst_0", "iconst_1", "iconst_2", "iconst_3", "iconst_4",
  "iconst_5", "lconst_0", "lconst_1", "fconst_0", "fconst_1", "fconst_2", "dconst_0", "dconst_1",
  "bipush", "sipush", "ldc", "ldc_w", "ldc2_w", "iload", "lload", "fload", "dload", "aload",
  "iload_0", "iload_1", "iload_2", "iload_3", "lload_0", "lload_1", "lload_2", "lload_3",
  "fload_0", "fload_1", "fload_2", "fload_3", "dload_0", "dload_1", "dload_2", "dload_3",
  "aload_0", "aload_1", "aload_2", "aload_3", "iaload", "laload", "faload", "daload", "aaload",
  "baload", "caload", "saload", "istore", "lstore", "fstore", "dstore", "astore", "istore_0",
  "istore_1", "istore_2", "istore_3", "lstore_0", "lstore_1", "lstore_2", "lstore_3", "fstore_0",
  "fstore_1", "fstore_2", "fstore_3", "dstore_0", "dstore_1", "dstore_2", "dstore_3", "astore_0",
  "astore_1", "astore_2", "astore_3", "iastore", "lastore", "fastore", "dastore", "aastore",
  "bastore", "castore", "sastore", "pop", "pop2", "dup", "dup_x1", "dup_x2", "dup2", "dup2_x1",
  "dup2_x2", "swap", "iadd", "ladd", "fadd", "dadd", "isub", "lsub", "fsub", "dsub", "imul",
  "lmul", "fmul", "dmul", "idiv", "ldiv", "fdiv", "ddiv", "irem", "lrem", "frem", "drem", "ineg",
  "lneg", "fneg", "dneg", "ishl", "lshl", "ishr", "lshr", "iushr", "lushr", "iand", "land",
  "ior", "lor", "ixor", "lxor", "iinc", "i2l", "i2f", "i2d", "l2i", "l2f", "l2d", "f2i", "f2l",
  "f2d", "d2i", "d2l", "d2f", "i2b", "i2c", "i2s", "lcmp", "fcmpl", "fcmpg", "dcmpl", "dcmpg",
  "ifeq", "ifne", "iflt", "ifge", "ifgt", "ifle", "if_icmpeq", "if_icmpne", "if_icmplt",
  "if_icmpge", "if_icmpgt", "if_icmple", "if_acmpeq", "if_acmpne", "goto", "jsr", "ret",
  "tableswitch", "lookupswitch", "ireturn", "lreturn", "freturn", "dreturn", "areturn", "return",
  "getstatic", "putstatic", "getfield", "putfield", "invokevirtual", "invokespecial",
  "invokestatic", "invokeinterface", "invokedynamic", "new", "newarray", "anewarray",
  "arraylength", "athrow", "checkcast", "instanceof", "monitorenter", "monitorexit", "wide",
  "multianewarray", "ifnull", "ifnonnull", "goto_w", "jsr_w"
]

def mnemonic (op : Opcode) : Option String := mnemonics[op.toNat]?

abbrev nop : Opcode := 0x00
abbrev aconst_null : Opcode := 0x01
abbrev iconst_m1 : Opcode := 0x02
abbrev iconst_0 : Opcode := 0x03
abbrev iconst_5 : Opcode := 0x08
abbrev lconst_0 : Opcode := 0x09
abbrev lconst_1 : Opcode := 0x0a
abbrev fconst_0 : Opcode := 0x0b
abbrev fconst_1 : Opcode := 0x0c
abbrev fconst_2 : Opcode := 0x0d
abbrev dconst_0 : Opcode := 0x0e
abbrev dconst_1 : Opcode := 0x0f
abbrev bipush : Opcode := 0x10
abbrev sipush : Opcode := 0x11
abbrev ldc : Opcode := 0x12
abbrev ldc_w : Opcode := 0x13
abbrev ldc2_w : Opcode := 0x14
abbrev iload : Opcode := 0x15
abbrev aload : Opcode := 0x19
abbrev iload_0 : Opcode := 0x1a
abbrev aload_3 : Opcode := 0x2d
abbrev iaload : Opcode := 0x2e
abbrev laload : Opcode := 0x2f
abbrev faload : Opcode := 0x30
abbrev daload : Opcode := 0x31
abbrev aaload : Opcode := 0x32
abbrev baload : Opcode := 0x33
abbrev caload : Opcode := 0x34
abbrev saload : Opcode := 0x35
abbrev istore : Opcode := 0x36
abbrev astore : Opcode := 0x3a
abbrev istore_0 : Opcode := 0x3b
abbrev astore_3 : Opcode := 0x4e
abbrev iastore : Opcode := 0x4f
abbrev sastore : Opcode := 0x56
abbrev pop : Opcode := 0x57
abbrev pop2 : Opcode := 0x58
abbrev dup : Opcode := 0x59
abbrev dup_x1 : Opcode := 0x5a
abbrev dup_x2 : Opcode := 0x5b
abbrev dup2 : Opcode := 0x5c
abbrev dup2_x1 : Opcode := 0x5d
abbrev dup2_x2 : Opcode := 0x5e
abbrev swap : Opcode := 0x5f
abbrev iadd : Opcode := 0x60
abbrev lxor : Opcode := 0x83
abbrev iinc : Opcode := 0x84
abbrev i2l : Opcode := 0x85
abbrev i2f : Opcode := 0x86
abbrev i2d : Opcode := 0x87
abbrev l2i : Opcode := 0x88
abbrev l2f : Opcode := 0x89
abbrev l2d : Opcode := 0x8a
abbrev f2i : Opcode := 0x8b
abbrev f2l : Opcode := 0x8c
abbrev f2d : Opcode := 0x8d
abbrev d2i : Opcode := 0x8e
abbrev d2l : Opcode := 0x8f
abbrev d2f : Opcode := 0x90
abbrev i2b : Opcode := 0x91
abbrev i2c : Opcode := 0x92
abbrev i2s : Opcode := 0x93
abbrev lcmp : Opcode := 0x94
abbrev fcmpl : Opcode := 0x95
abbrev fcmpg : Opcode := 0x96
abbrev dcmpl : Opcode := 0x97
abbrev dcmpg : Opcode := 0x98
abbrev ifeq : Opcode := 0x99
abbrev ifne : Opcode := 0x9a
abbrev iflt : Opcode := 0x9b
abbrev ifge : Opcode := 0x9c
abbrev ifgt : Opcode := 0x9d
abbrev ifle : Opcode := 0x9e
abbrev if_icmpeq : Opcode := 0x9f
abbrev if_icmple : Opcode := 0xa4
abbrev if_acmpeq : Opcode := 0xa5
abbrev if_acmpne : Opcode := 0xa6
abbrev goto : Opcode := 0xa7
abbrev jsr : Opcode := 0xa8
abbrev ret : Opcode := 0xa9
abbrev tableswitch : Opcode := 0xaa
abbrev lookupswitch : Opcode := 0xab
abbrev ireturn : Opcode := 0xac
abbrev lreturn : Opcode := 0xad
abbrev freturn : Opcode := 0xae
abbrev dreturn : Opcode := 0xaf
abbrev areturn : Opcode := 0xb0
abbrev returnVoid : Opcode := 0xb1
abbrev getstatic : Opcode := 0xb2
abbrev putstatic : Opcode := 0xb3
abbrev getfield : Opcode := 0xb4
abbrev putfield : Opcode := 0xb5
abbrev invokevirtual : Opcode := 0xb6
abbrev invokespecial : Opcode := 0xb7
abbrev invokestatic : Opcode := 0xb8
abbrev invokeinterface : Opcode := 0xb9
abbrev invokedynamic : Opcode := 0xba
abbrev new : Opcode := 0xbb
abbrev newarray : Opcode := 0xbc
abbrev anewarray : Opcode := 0xbd
abbrev arraylength : Opcode := 0xbe
abbrev athrow : Opcode := 0xbf
abbrev checkcast : Opcode := 0xc0
abbrev instanceof : Opcode := 0xc1
abbrev monitorenter : Opcode := 0xc2
abbrev monitorexit : Opcode := 0xc3
abbrev wide : Opcode := 0xc4
abbrev multianewarray : Opcode := 0xc5
abbrev ifnull : Opcode := 0xc6
abbrev ifnonnull : Opcode := 0xc7
abbrev goto_w : Opcode := 0xc8
abbrev jsr_w : Opcode := 0xc9

/-- Arithmetic, bitwise and comparison instructions: operands and result on the stack. -/
def isMath (op : Opcode) : Bool :=
  (iadd ≤ op && op ≤ lxor) || (lcmp ≤ op && op ≤ dcmpg)

/-- The branch with the opposite condition; conditions come in neighbouring pairs. -/
def invert? (op : Opcode) : Option Opcode :=
  if ifeq ≤ op && op ≤ if_acmpne then
    some (if (op - ifeq) % 2 == 0 then op + 1 else op - 1)
  else if op == ifnull then some ifnonnull
  else if op == ifnonnull then some ifnull
  else none

def farForm? (op : Opcode) : Option Opcode :=
  if op == goto then some goto_w
  else if op == jsr then some jsr_w
  else none

def isFar (op : Opcode) : Bool := op == goto_w || op == jsr_w

def isSubroutineCall (op : Opcode) : Bool := op == jsr || op == jsr_w

def isReturn (op : Opcode) : Bool := ireturn ≤ op && op ≤ returnVoid

/-- Stack growth of an instruction without operands, by the number of its opcode. -/
def simpleAdjustment (op : Opcode) : Int :=
  let n := op.toNat
  if n = 0x01 ∨ (0x02 ≤ n ∧ n ≤ 0x08) ∨ (0x0b ≤ n ∧ n ≤ 0x0d) then 1
  else if n = 0x09 ∨ n = 0x0a ∨ n = 0x0e ∨ n = 0x0f then 2
  else if n = 0x2f ∨ n = 0x31 then 0
  else if 0x2e ≤ n ∧ n ≤ 0x35 then -1
  else if n = 0x50 ∨ n = 0x52 then -4
  else if 0x4f ≤ n ∧ n ≤ 0x56 then -3
  else if n = 0x57 then -1
  else if n = 0x58 then -2
  else if 0x59 ≤ n ∧ n ≤ 0x5b then 1
  else if 0x5c ≤ n ∧ n ≤ 0x5e then 2
  else if 0x60 ≤ n ∧ n ≤ 0x73 then (if n % 2 = 0 then -1 else -2)
  else if 0x78 ≤ n ∧ n ≤ 0x7d then -1
  else if 0x7e ≤ n ∧ n ≤ 0x83 then (if n % 2 = 0 then -1 else -2)
  else if n = 0x85 ∨ n = 0x87 ∨ n = 0x8c ∨ n = 0x8d then 1
  else if n = 0x88 ∨ n = 0x89 ∨ n = 0x8e ∨ n = 0x90 then -1
  else if n = 0x94 ∨ n = 0x97 ∨ n = 0x98 then -3
  else if n = 0x95 ∨ n = 0x96 then -1
  else if n = 0xac ∨ n = 0xae ∨ n = 0xb0 then -1
  else if n = 0xad ∨ n = 0xaf then -2
  else if n = 0xbf ∨ n = 0xc2 ∨ n = 0xc3 then -1
  else 0

/-- Stack growth of a jump; a subroutine call counts the return address it pushes. -/
def branchAdjustment (op : Opcode) : Int :=
  if (ifeq ≤ op && op ≤ ifle) || op == ifnull || op == ifnonnull then -1
  else if if_icmpeq ≤ op && op ≤ if_acmpne then -2
  else if isSubroutineCall op then 1
  else 0

end Opcode

end JvmAssembly
