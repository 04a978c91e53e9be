import JvmAssembly.Descriptor
import JvmAssembly.Opcode

/-!
The small alphabets that opcodes are built from: kinds of local values, comparisons, calls, stack
shuffles and conversions.
-/
namespace JvmAssembly

/-- How instructions see a value in a slot; everything narrower than `int` counts as one. -/
inductive LocalKind where
  | int | long | float | double | reference
deriving DecidableEq, Repr

namespace LocalKind

def all : List LocalKind := [.int, .long, .float, .double, .reference]

def name : LocalKind → String
  | .int => "Int"
  | .long => "Long"
  | .float => "Float"
  | .double => "Double"
  | .reference => "Reference"

def ofType : FieldType → LocalKind
  | .base .long => .long
  | .base .float => .float
  | .base .double => .double
  | .base _ => .int
  | .ref _ => .reference

def fieldType : LocalKind → FieldType
  | .int => .int
  | .long => .long
  | .float => .float
  | .double => .double
  | .reference => .object .object

def width : LocalKind → Nat
  | .long | .double => 2
  | _ => 1

def offset : LocalKind → UInt8
  | .int => 0
  | .long => 1
  | .float => 2
  | .double => 3
  | .reference => 4

def loadOpcode (k : LocalKind) : Opcode := Opcode.iload + k.offset

def storeOpcode (k : LocalKind) : Opcode := Opcode.istore + k.offset

def returnOpcode (k : LocalKind) : Opcode := Opcode.ireturn + k.offset

def shortLoadOpcode (k : LocalKind) (slot : UInt8) : Opcode :=
  Opcode.iload_0 + 4 * k.offset + slot

def shortStoreOpcode (k : LocalKind) (slot : UInt8) : Opcode :=
  Opcode.istore_0 + 4 * k.offset + slot

/-- Kind of a load or store, and the slot if the opcode names it. -/
def ofLocalOpcode? (op : Opcode) : Option (LocalKind × Option UInt8) :=
  let long (base : Opcode) := (all[(op - base).toNat]?).map fun k => (k, none)
  let short (base : Opcode) :=
    (all[(op - base).toNat / 4]?).map fun k => (k, some ((op - base) % 4))
  if Opcode.iload ≤ op && op ≤ Opcode.aload then long Opcode.iload
  else if Opcode.iload_0 ≤ op && op ≤ Opcode.aload_3 then short Opcode.iload_0
  else if Opcode.istore ≤ op && op ≤ Opcode.astore then long Opcode.istore
  else if Opcode.istore_0 ≤ op && op ≤ Opcode.astore_3 then short Opcode.istore_0
  else none

def ofReturnOpcode? (op : Opcode) : Option LocalKind :=
  if Opcode.ireturn ≤ op && op ≤ Opcode.areturn then all[(op - Opcode.ireturn).toNat]?
  else none

end LocalKind

inductive Comparison where
  | eq | ne | lt | ge | gt | le
deriving DecidableEq, Repr

namespace Comparison

def all : List Comparison := [.eq, .ne, .lt, .ge, .gt, .le]

def name : Comparison → String
  | .eq => "EQ"
  | .ne => "NE"
  | .lt => "LT"
  | .ge => "GE"
  | .gt => "GT"
  | .le => "LE"

def symbol : Comparison → String
  | .eq => "=="
  | .ne => "!="
  | .lt => "<"
  | .ge => ">="
  | .gt => ">"
  | .le => "<="

def ofSymbol? (s : String) : Option Comparison :=
  all.find? fun c => c.symbol == s

def not : Comparison → Comparison
  | .eq => .ne
  | .ne => .eq
  | .lt => .ge
  | .ge => .lt
  | .gt => .le
  | .le => .gt

def offset : Comparison → UInt8
  | .eq => 0
  | .ne => 1
  | .lt => 2
  | .ge => 3
  | .gt => 4
  | .le => 5

def zeroOpcode (c : Comparison) : Opcode := Opcode.ifeq + c.offset

def intOpcode (c : Comparison) : Opcode := Opcode.if_icmpeq + c.offset

/-- Branch on two references, which only compare for equality. -/
def referenceOpcode? : Comparison → Option Opcode
  | .eq => some Opcode.if_acmpeq
  | .ne => some Opcode.if_acmpne
  | _ => none

def ofOpcode? (op : Opcode) : Option Comparison :=
  if Opcode.ifeq ≤ op && op ≤ Opcode.ifle then all[(op - Opcode.ifeq).toNat]?
  else if Opcode.if_icmpeq ≤ op && op ≤ Opcode.if_icmple then all[(op - Opcode.if_icmpeq).toNat]?
  else if op == Opcode.if_acmpeq then some .eq
  else if op == Opcode.if_acmpne then some .ne
  else none

end Comparison

inductive InvokeKind where
  | virtual | static | special | interface
deriving DecidableEq, Repr

namespace InvokeKind

def all : List InvokeKind := [.virtual, .static, .special, .interface]

def name : InvokeKind → String
  | .virtual => "Virtual"
  | .static => "Static"
  | .special => "Special"
  | .interface => "Interface"

def opcode : InvokeKind → Opcode
  | .virtual => Opcode.invokevirtual
  | .static => Opcode.invokestatic
  | .special => Opcode.invokespecial
  | .interface => Opcode.invokeinterface

def ofOpcode? (op : Opcode) : Option InvokeKind :=
  all.find? fun k => k.opcode == op

end InvokeKind

inductive StackOp where
  | pop | pop2 | dup | dupX1 | dupX2 | dup2 | dup2X1 | dup2X2 | swap
deriving DecidableEq, Repr

namespace StackOp

def all : List StackOp := [.pop, .pop2, .dup, .dupX1, .dupX2, .dup2, .dup2X1, .dup2X2, .swap]

def name : StackOp → String
  | .pop => "Pop"
  | .pop2 => "Pop2"
  | .dup => "Dup"
  | .dupX1 => "DupX1"
  | .dupX2 => "DupX2"
  | .dup2 => "Dup2"
  | .dup2X1 => "Dup2X1"
  | .dup2X2 => "Dup2X2"
  | .swap => "Swap"

def opcode : StackOp → Opcode
  | .pop => Opcode.pop
  | .pop2 => Opcode.pop2
  | .dup => Opcode.dup
  | .dupX1 => Opcode.dup_x1
  | .dupX2 => Opcode.dup_x2
  | .dup2 => Opcode.dup2
  | .dup2X1 => Opcode.dup2_x1
  | .dup2X2 => Opcode.dup2_x2
  | .swap => Opcode.swap

def ofOpcode? (op : Opcode) : Option StackOp :=
  all.find? fun s => s.opcode == op

end StackOp

/-- What a conversion between integers and floating point keeps: the number or the bits. -/
inductive ConvertMode where
  | normal
  /-- The bits, with every NaN taken as the canonical one. -/
  | bits
  | rawBits
deriving DecidableEq, Repr

namespace ConvertMode

def all : List ConvertMode := [.normal, .bits, .rawBits]

def name : ConvertMode → String
  | .normal => "Normal"
  | .bits => "Bits"
  | .rawBits => "RawBits"

end ConvertMode

end JvmAssembly
