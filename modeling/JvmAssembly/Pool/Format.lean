import JvmAssembly.Binary.Reader
import JvmAssembly.Pool.Numbering

/-!
The constant pool in a class file. Entries are read with their links as indices, which become
positions once all entries are known; every entry keeps the index that it was read at.
-/
namespace JvmAssembly

/-- An entry whose links are class file indices. -/
abbrev RawConstant := ConstantOf UInt16

namespace RawConstant

def read : Reader RawConstant := do
  let tag ← Scan.u8
  match tag.toNat with
  | 1 =>
    let size ← Scan.u16
    let bytes ← Scan.take size.toNat
    match ModifiedUtf8.decode bytes with
    | .ok text => return .utf8 text
    | .error fault => Reader.fail (.malformed (.badText fault))
  | 3 => return .integer (← Scan.i32)
  | 4 => return .float (← Scan.u32)
  | 5 => return .long (← Scan.i64)
  | 6 => return .double (← Scan.u64)
  | 7 => return .classInfo (← Scan.u16)
  | 8 => return .string (← Scan.u16)
  | 9 => return .fieldRef (← Scan.u16) (← Scan.u16)
  | 10 => return .methodRef (← Scan.u16) (← Scan.u16) false
  | 11 => return .methodRef (← Scan.u16) (← Scan.u16) true
  | 12 => return .nameAndType (← Scan.u16) (← Scan.u16)
  | 15 =>
    let kind ← Scan.u8
    match HandleKind.ofByte? kind with
    | some kind => return .methodHandle kind (← Scan.u16)
    | none => Reader.fail (.malformed (.unknownHandleKind kind))
  | 16 => return .methodType (← Scan.u16)
  | 18 => return .invokeDynamic (← Scan.u16) (← Scan.u16)
  | _ => Reader.fail (.malformed (.unknownTag tag))

def write (c : RawConstant) : Except Fault Bytes :=
  let body : Except Fault Bytes :=
    match c with
    | .utf8 text =>
      let bytes := ModifiedUtf8.encode text
      if bytes.length ≤ 65535 then .ok (be16 (UInt16.ofNat bytes.length) ++ bytes)
      else .error (.textTooLong bytes.length)
    | .integer value => .ok (be32 value.toUInt32)
    | .float bits => .ok (be32 bits)
    | .long value => .ok (be64 value.toUInt64)
    | .double bits => .ok (be64 bits)
    | .classInfo name => .ok (be16 name)
    | .string text => .ok (be16 text)
    | .fieldRef owner member => .ok (be16 owner ++ be16 member)
    | .methodRef owner member _ => .ok (be16 owner ++ be16 member)
    | .nameAndType name descriptor => .ok (be16 name ++ be16 descriptor)
    | .methodHandle kind member => .ok (kind.toByte :: be16 member)
    | .methodType descriptor => .ok (be16 descriptor)
    | .invokeDynamic bootstrap member => .ok (be16 bootstrap ++ be16 member)
  match body with
  | .ok bytes => .ok (c.tag :: bytes)
  | .error fault => .error fault

end RawConstant

/-- Entries of a pool as read, and the position of the entry at each index so far. -/
structure RawPool where
  entries : Array RawConstant
  positions : Pool.IndexTable

namespace RawPool

def push (raw : RawPool) (c : RawConstant) : RawPool :=
  match raw with
  | ⟨entries, positions⟩ =>
    let positions := positions.push (some entries.size)
    ⟨entries.push c, if c.width = 2 then positions.push none else positions⟩

/-- Reads entries until the indices below `count` are used up. The budget bounds the number of
entries; `count` of them always suffice. -/
def readEntries (count : Nat) (raw : RawPool) : Nat → Reader RawPool
  | 0, c => .ok (raw, c)
  | budget + 1, c =>
    if raw.positions.size < count then
      match RawConstant.read c with
      | .error fault => .error fault
      | .ok (entry, c) => readEntries count (raw.push entry) budget c
    else .ok (raw, c)

def read : Reader RawPool := do
  let count ← Scan.u16
  let raw ← readEntries count.toNat ⟨#[], #[none]⟩ count.toNat
  if raw.positions.size = count.toNat then return raw
  else Reader.fail (.malformed (.poolEnd raw.positions.size count.toNat))

/-- Replaces links by positions and appends the entries, also equal ones. -/
def link (positions : Pool.IndexTable) : Pool → List RawConstant → Except Fault Pool
  | pool, [] => .ok pool
  | pool, c :: rest =>
    match c.mapLinks positions.lookup with
    | .ok c => link positions (pool.append c) rest
    | .error fault => .error fault

end RawPool

namespace Pool

/-- A pool that keeps the indices of the input. -/
def read : Reader Pool := fun c =>
  match RawPool.read c with
  | .error fault => .error fault
  | .ok (raw, c) =>
    match RawPool.link raw.positions .empty raw.entries.toList with
    | .error fault => .error fault
    | .ok pool =>
      match pool.assign .preserve with
      | .error fault => .error fault
      | .ok pool => .ok (pool, c)

def raw (p : Pool) (ref : ConstantRef) : Except Fault RawConstant :=
  match p.get ref with
  | .ok c => c.mapLinks p.indexOf
  | .error fault => .error fault

def write (p : Pool) : Except Fault Bytes :=
  match p.numbering with
  | none => .error .poolUnnumbered
  | some n =>
    let writeEntry (ref : ConstantRef) : Except Fault Bytes :=
      match p.raw ref with
      | .ok c => c.write
      | .error fault => .error fault
    match n.order.toList.mapM writeEntry with
    | .ok parts => .ok (be16 (UInt16.ofNat n.entryAt.size) ++ parts.flatten)
    | .error fault => .error fault

def entriesWritten (p : Pool) : List ConstantRef → Bytes
  | [] => []
  | ref :: rest =>
    match p.raw ref with
    | .error _ => []
    | .ok c =>
      match c.write with
      | .error _ => [c.tag]
      | .ok bytes => bytes ++ p.entriesWritten rest

/-- What is written of a pool before its first fault. -/
def written (p : Pool) : Bytes :=
  match p.numbering with
  | none => []
  | some n => be16 (UInt16.ofNat n.entryAt.size) ++ p.entriesWritten n.order.toList

end Pool

end JvmAssembly
