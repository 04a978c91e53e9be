import JvmAssembly.Kind

/-!
Opcodes picked by type: conversions between base types, array elements and new arrays.
-/
namespace JvmAssembly

namespace Conversion

def betweenKinds? : LocalKind → LocalKind → Option Opcode
  | .int, .long => some Opcode.i2l
  | .int, .float => some Opcode.i2f
  | .int, .double => some Opcode.i2d
  | .long, .int => some Opcode.l2i
  | .long, .float => some Opcode.l2f
  | .long, .double => some Opcode.l2d
  | .float, .int => some Opcode.f2i
  | .float, .long => some Opcode.f2l
  | .float, .double => some Opcode.f2d
  | .double, .int => some Opcode.d2i
  | .double, .long => some Opcode.d2l
  | .double, .float => some Opcode.d2f
  | _, _ => none

def narrow? : BaseType → Option Opcode
  | .byte => some Opcode.i2b
  | .char => some Opcode.i2c
  | .short => some Opcode.i2s
  | _ => none

/-- Opcodes of a numeric conversion; nothing converts to or from `boolean`. -/
def opcodes? (source target : BaseType) : Option (List Opcode) :=
  let sourceKind := LocalKind.ofType (.base source)
  let targetKind := LocalKind.ofType (.base target)
  if source = target then some []
  else if source = .boolean ∨ target = .boolean then none
  else
    match narrow? target with
    | some narrow =>
      if sourceKind = .int then
        if source = .byte ∧ target = .short then some [] else some [narrow]
      else (betweenKinds? sourceKind .int).map fun first => [first, narrow]
    | none =>
      if sourceKind = targetKind then some []
      else (betweenKinds? sourceKind targetKind).map fun op => [op]

/-- Library method that reinterprets the bits of a value. -/
def bitsHelper? (raw : Bool) : BaseType → BaseType → Option (BinaryName × String)
  | .float, .int => some (.float, if raw then "floatToRawIntBits" else "floatToIntBits")
  | .int, .float => some (.float, "intBitsToFloat")
  | .double, .long => some (.double, if raw then "doubleToRawLongBits" else "doubleToLongBits")
  | .long, .double => some (.double, "longBitsToDouble")
  | _, _ => none

end Conversion

namespace FieldType

def arrayLoadOpcode : FieldType → Opcode
  | .base .int => Opcode.iaload
  | .base .long => Opcode.laload
  | .base .float => Opcode.faload
  | .base .double => Opcode.daload
  | .base .byte | .base .boolean => Opcode.baload
  | .base .char => Opcode.caload
  | .base .short => Opcode.saload
  | .ref _ => Opcode.aaload

def arrayStoreOpcode (t : FieldType) : Opcode :=
  t.arrayLoadOpcode + (Opcode.iastore - Opcode.iaload)

end FieldType

namespace BaseType

def arrayCode : BaseType → UInt8
  | .boolean => 4
  | .char => 5
  | .float => 6
  | .double => 7
  | .byte => 8
  | .short => 9
  | .int => 10
  | .long => 11

def ofArrayCode? (code : UInt8) : Option BaseType :=
  all.find? fun b => b.arrayCode == code

end BaseType

end JvmAssembly
