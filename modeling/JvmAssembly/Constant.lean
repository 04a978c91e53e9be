/-!
Entries of a constant pool. Entries refer to each other by position in the pool, not by the index
that a class file gives them, and floating-point values are kept as their bits.
-/
namespace JvmAssembly

abbrev ConstantRef := Nat

inductive HandleKind where
  | getField | getStatic | putField | putStatic
  | invokeVirtual | invokeStatic | invokeSpecial | newInvokeSpecial | invokeInterface
deriving DecidableEq, Repr, Hashable

namespace HandleKind

/-- Kinds in the order of their numbers, which start at one. -/
def all : List HandleKind :=
  [.getField, .getStatic, .putField, .putStatic, .invokeVirtual, .invokeStatic, .invokeSpecial,
    .newInvokeSpecial, .invokeInterface]

def name : HandleKind → String
  | .getField => "GetField"
  | .getStatic => "GetStatic"
  | .putField => "PutField"
  | .putStatic => "PutStatic"
  | .invokeVirtual => "InvokeVirtual"
  | .invokeStatic => "InvokeStatic"
  | .invokeSpecial => "InvokeSpecial"
  | .newInvokeSpecial => "NewInvokeSpecial"
  | .invokeInterface => "InvokeInterface"

def toByte : HandleKind → UInt8
  | .getField => 1
  | .getStatic => 2
  | .putField => 3
  | .putStatic => 4
  | .invokeVirtual => 5
  | .invokeStatic => 6
  | .invokeSpecial => 7
  | .newInvokeSpecial => 8
  | .invokeInterface => 9

def ofByte? (b : UInt8) : Option HandleKind :=
  all.find? fun k => k.toByte == b

end HandleKind

/-- A pool entry whose links to other entries are of type `ρ`. -/
inductive ConstantOf (ρ : Type) where
  | utf8 (text : String)
  | integer (value : Int32)
  | float (bits : UInt32)
  | long (value : Int64)
  | double (bits : UInt64)
  | classInfo (name : ρ)
  | string (text : ρ)
  | fieldRef (owner : ρ) (member : ρ)
  | methodRef (owner : ρ) (member : ρ) (isInterface : Bool)
  | nameAndType (name : ρ) (descriptor : ρ)
  | methodHandle (kind : HandleKind) (member : ρ)
  | methodType (descriptor : ρ)
  | invokeDynamic (bootstrap : UInt16) (member : ρ)
deriving DecidableEq, Repr, Hashable

abbrev Constant := ConstantOf ConstantRef

namespace ConstantOf

variable {ρ σ : Type}

/-- How many indices the entry takes: the one after a wide entry stays unused. -/
def width : ConstantOf ρ → Nat
  | .long _ | .double _ => 2
  | _ => 1

/-- Entries worth a low index, within reach of the short load. -/
def isPriority : ConstantOf ρ → Bool
  | .integer _ | .float _ | .string _ => true
  | _ => false

def tag : ConstantOf ρ → UInt8
  | .utf8 _ => 1
  | .integer _ => 3
  | .float _ => 4
  | .long _ => 5
  | .double _ => 6
  | .classInfo _ => 7
  | .string _ => 8
  | .fieldRef _ _ => 9
  | .methodRef _ _ isInterface => if isInterface then 11 else 10
  | .nameAndType _ _ => 12
  | .methodHandle _ _ => 15
  | .methodType _ => 16
  | .invokeDynamic _ _ => 18

/-- Follows every link, from left to right; the first that fails decides. -/
def mapLinks {ε : Type} (f : ρ → Except ε σ) : ConstantOf ρ → Except ε (ConstantOf σ)
  | .utf8 text => .ok (.utf8 text)
  | .integer value => .ok (.integer value)
  | .float bits => .ok (.float bits)
  | .long value => .ok (.long value)
  | .double bits => .ok (.double bits)
  | .classInfo name => return .classInfo (← f name)
  | .string text => return .string (← f text)
  | .fieldRef owner member => return .fieldRef (← f owner) (← f member)
  | .methodRef owner member isInterface =>
    return .methodRef (← f owner) (← f member) isInterface
  | .nameAndType name descriptor => return .nameAndType (← f name) (← f descriptor)
  | .methodHandle kind member => return .methodHandle kind (← f member)
  | .methodType descriptor => return .methodType (← f descriptor)
  | .invokeDynamic bootstrap member => return .invokeDynamic bootstrap (← f member)

end ConstantOf

end JvmAssembly
