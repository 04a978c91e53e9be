import JvmAssembly.Text.Hex

/-!
The text encoding of class files: every UTF-16 unit becomes a group of one, two or three bytes,
and the zero unit takes two, so that no zero byte appears. Reading pairs surrogates up again and
puts the replacement character for one that stands alone.
-/
namespace JvmAssembly

abbrev Bytes := List UInt8

namespace ModifiedUtf8

inductive Fault where
  | badContinuation (byte : UInt8) (index : Nat)
  | truncated (index : Nat)
  | badLead (byte : UInt8) (index : Nat)
deriving DecidableEq, Repr

def Fault.message : Fault → String
  | .badContinuation byte index =>
    "Invalid continuation byte " ++ Hex.literal 1 byte.toNat ++ " at " ++ toString index
  | .truncated index => "Truncated modified UTF-8 sequence at " ++ toString index
  | .badLead byte index =>
    "Invalid modified UTF-8 byte " ++ Hex.literal 1 byte.toNat ++ " at " ++ toString index

def units (c : Char) : List Nat :=
  let n := c.toNat
  if n < 0x10000 then [n]
  else [0xD800 + (n - 0x10000) / 0x400, 0xDC00 + (n - 0x10000) % 0x400]

def encodeUnit (u : Nat) : Bytes :=
  if 0 < u ∧ u < 0x80 then [UInt8.ofNat u]
  else if u < 0x800 then [UInt8.ofNat (0xC0 + u / 0x40), UInt8.ofNat (0x80 + u % 0x40)]
  else [UInt8.ofNat (0xE0 + u / 0x1000), UInt8.ofNat (0x80 + u / 0x40 % 0x40),
    UInt8.ofNat (0x80 + u % 0x40)]

def encode (s : String) : Bytes :=
  (s.toList.flatMap units).flatMap encodeUnit

/-- The six bits of a continuation byte at an index. -/
def continuation (index : Nat) (byte : UInt8) : Except Fault Nat :=
  if byte.toNat / 0x40 = 2 then .ok (byte.toNat % 0x40)
  else .error (.badContinuation byte index)

/-- Units of the groups in `bytes`, which start at `index`, after those already read. -/
def decodeUnits (index : Nat) (done : Array Nat) : Bytes → Except Fault (List Nat)
  | [] => .ok done.toList
  | lead :: rest =>
    let b := lead.toNat
    if b < 0x80 then decodeUnits (index + 1) (done.push b) rest
    else if b / 0x20 = 6 then
      match rest with
      | [] => .error (.truncated (index + 1))
      | second :: rest =>
        match continuation (index + 1) second with
        | .error f => .error f
        | .ok x => decodeUnits (index + 2) (done.push (b % 0x20 * 0x40 + x)) rest
    else if b / 0x10 = 14 then
      match rest with
      | [] => .error (.truncated (index + 1))
      | second :: rest =>
        match continuation (index + 1) second with
        | .error f => .error f
        | .ok x =>
          match rest with
          | [] => .error (.truncated (index + 2))
          | third :: rest =>
            match continuation (index + 2) third with
            | .error f => .error f
            | .ok y =>
              decodeUnits (index + 3) (done.push (b % 0x10 * 0x1000 + x * 0x40 + y)) rest
    else .error (.badLead lead index)

def isHigh (u : Nat) : Bool := 0xD800 ≤ u && u < 0xDC00

def isLow (u : Nat) : Bool := 0xDC00 ≤ u && u < 0xE000

def replacement : Char := Char.ofNat 0xFFFD

/-- Characters of a sequence of units, pushed in front of `done` and so in reverse. -/
def pair (done : List Char) : List Nat → List Char
  | [] => done
  | [u] => (if isHigh u || isLow u then replacement else Char.ofNat u) :: done
  | u :: v :: rest =>
    if isHigh u then
      if isLow v then
        pair (Char.ofNat (0x10000 + (u - 0xD800) * 0x400 + (v - 0xDC00)) :: done) rest
      else pair (replacement :: done) (v :: rest)
    else pair ((if isLow u then replacement else Char.ofNat u) :: done) (v :: rest)

def decode (bytes : Bytes) : Except Fault String :=
  match decodeUnits 0 #[] bytes with
  | .ok us => .ok (String.ofList (pair [] us).reverse)
  | .error f => .error f

end ModifiedUtf8

end JvmAssembly
