import JvmAssembly.Binary.Word

/-!
Reading words off the front of a byte sequence. A scan fails only because the bytes run out; the
cursor counts what has been read.
-/
namespace JvmAssembly

structure Cursor where
  position : Nat
  rest : Bytes

def Cursor.start (bytes : Bytes) : Cursor := ⟨0, bytes⟩

abbrev Scan := StateT Cursor Option

namespace Scan

def u8 : Scan UInt8 := fun c =>
  match c.rest with
  | [] => none
  | b :: rest => some (b, ⟨c.position + 1, rest⟩)

def u16 : Scan UInt16 := do
  let a ← u8
  let b ← u8
  return UInt16.ofNat (a.toNat * 0x100 + b.toNat)

def u32 : Scan UInt32 := do
  let a ← u16
  let b ← u16
  return UInt32.ofNat (a.toNat * 0x10000 + b.toNat)

def u64 : Scan UInt64 := do
  let a ← u32
  let b ← u32
  return UInt64.ofNat (a.toNat * 0x100000000 + b.toNat)

def i8 : Scan Int8 := return (← u8).toInt8

def i16 : Scan Int16 := return (← u16).toInt16

def i32 : Scan Int32 := return (← u32).toInt32

def i64 : Scan Int64 := return (← u64).toInt64

/-- Exactly `n` bytes. -/
def take (n : Nat) : Scan Bytes := fun c =>
  match c.rest.splitAt n with
  | (front, rest) => if front.length = n then some (front, ⟨c.position + n, rest⟩) else none

end Scan

end JvmAssembly
