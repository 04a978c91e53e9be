import JvmAssembly.Binary.Cursor
import JvmAssembly.Fault

/-!
Readers of the class file format, and the length-prefixed sequences that they share with writers.
-/
namespace JvmAssembly

abbrev Reader := StateT Cursor (Except Fault)

namespace Reader

variable {α : Type}

/-- A scan that runs out of bytes is a fault of the input. -/
def ofScan (scan : Scan α) : Reader α := fun c =>
  match scan c with
  | some r => .ok r
  | none => .error .endOfInput

instance : MonadLift Scan Reader := ⟨ofScan⟩

def fail (fault : Fault) : Reader α := fun _ => .error fault

/-- `n` items in a row, after those already read. -/
def many (read : Reader α) (done : Array α) : Nat → Reader (Array α)
  | 0, c => .ok (done, c)
  | n + 1, c =>
    match read c with
    | .error fault => .error fault
    | .ok (a, c) => many read (done.push a) n c

/-- A sequence behind a sixteen-bit count. -/
def counted (read : Reader α) : Reader (List α) := do
  let n ← Scan.u16
  let items ← many read #[] n.toNat
  return items.toList

def run (read : Reader α) (bytes : Bytes) : Except Fault (α × Cursor) :=
  read (Cursor.start bytes)

end Reader

/-- Writes a sequence behind a sixteen-bit count; the first item that fails decides. -/
def writeCounted {α : Type} (write : α → Except Fault Bytes) (items : List α) :
    Except Fault Bytes :=
  let n := items.length
  if n ≤ 65535 then
    match items.mapM write with
    | .ok parts => .ok (be16 (UInt16.ofNat n) ++ parts.flatten)
    | .error fault => .error fault
  else .error (.tooManyElements n)

end JvmAssembly
