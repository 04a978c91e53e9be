import JvmAssembly.Text.ModifiedUtf8

/-!
Big-endian words as bytes.
-/
namespace JvmAssembly

def be16 (w : UInt16) : Bytes :=
  [UInt8.ofNat (w.toNat / 0x100), UInt8.ofNat w.toNat]

def be32 (w : UInt32) : Bytes :=
  [UInt8.ofNat (w.toNat / 0x1000000), UInt8.ofNat (w.toNat / 0x10000),
    UInt8.ofNat (w.toNat / 0x100), UInt8.ofNat w.toNat]

def be64 (w : UInt64) : Bytes :=
  be32 (UInt32.ofNat (w.toNat / 0x100000000)) ++ be32 (UInt32.ofNat w.toNat)

/-- The word of a signed distance, which wraps outside 32 bits. -/
def be32OfInt (n : Int) : Bytes := be32 (Int32.ofInt n).toUInt32

end JvmAssembly
