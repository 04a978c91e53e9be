/-!
Lower-case hexadecimal text, as fault messages write addresses, opcodes and bytes.
-/
namespace JvmAssembly.Hex

/-- One digit; values above fifteen do not arise. -/
def digit (n : Nat) : Char :=
  if n < 10 then Char.ofNat (48 + n) else Char.ofNat (87 + n)

/-- The digits of `n`, most significant first, with zeros in front up to `width`. -/
def digits (width n : Nat) : String :=
  let ds := (Nat.toDigits 16 n)
  String.ofList (List.replicate (width - ds.length) '0' ++ ds)

def literal (width n : Nat) : String :=
  "0x" ++ digits width n

def byte (b : UInt8) : List Char :=
  [digit (b.toNat / 16), digit (b.toNat % 16)]

end JvmAssembly.Hex
