import JvmAssembly.Pool.Format

/-!
Attributes: a name and a body of bytes, which is decoded only on demand. Four bodies have a
structure here: code, line numbers, local variables and the source file.
-/
namespace JvmAssembly

structure Attribute where
  nameIndex : UInt16
  info : Bytes
deriving DecidableEq, Repr

namespace Attribute

def read : Reader Attribute := do
  let nameIndex ← Scan.u16
  let size ← Scan.u32
  return ⟨nameIndex, ← Scan.take size.toNat⟩

def write (a : Attribute) : Bytes :=
  be16 a.nameIndex ++ be32 (UInt32.ofNat a.info.length) ++ a.info

def name (a : Attribute) (pool : Pool) : Except Fault String := pool.textAt a.nameIndex

end Attribute

/-- Range of code that an exception handler guards; catch type zero catches everything. -/
structure HandlerRow where
  startPc : UInt16
  endPc : UInt16
  handlerPc : UInt16
  catchType : UInt16
deriving DecidableEq, Repr

structure LineRow where
  startPc : UInt16
  line : UInt16
deriving DecidableEq, Repr

structure VariableRow where
  startPc : UInt16
  length : UInt16
  nameIndex : UInt16
  descriptorIndex : UInt16
  slot : UInt16
deriving DecidableEq, Repr

structure CodeAttribute where
  maxStack : UInt16
  maxLocals : UInt16
  code : Bytes
  handlers : List HandlerRow
  attributes : List Attribute
deriving DecidableEq, Repr

namespace HandlerRow

def read : Reader HandlerRow := do
  return ⟨← Scan.u16, ← Scan.u16, ← Scan.u16, ← Scan.u16⟩

def write (h : HandlerRow) : Bytes :=
  be16 h.startPc ++ be16 h.endPc ++ be16 h.handlerPc ++ be16 h.catchType

end HandlerRow

namespace LineRow

def read : Reader LineRow := do
  return ⟨← Scan.u16, ← Scan.u16⟩

def write (l : LineRow) : Bytes := be16 l.startPc ++ be16 l.line

end LineRow

namespace VariableRow

def read : Reader VariableRow := do
  return ⟨← Scan.u16, ← Scan.u16, ← Scan.u16, ← Scan.u16, ← Scan.u16⟩

def write (v : VariableRow) : Bytes :=
  be16 v.startPc ++ be16 v.length ++ be16 v.nameIndex ++ be16 v.descriptorIndex ++ be16 v.slot

end VariableRow

namespace CodeAttribute

def read : Reader CodeAttribute := do
  let maxStack ← Scan.u16
  let maxLocals ← Scan.u16
  let size ← Scan.u32
  let code ← Scan.take size.toNat
  let handlers ← Reader.counted HandlerRow.read
  let attributes ← Reader.counted Attribute.read
  return ⟨maxStack, maxLocals, code, handlers, attributes⟩

def write (c : CodeAttribute) : Except Fault Bytes := do
  let handlers ← writeCounted (fun h => .ok h.write) c.handlers
  let attributes ← writeCounted (fun a => .ok a.write) c.attributes
  return be16 c.maxStack ++ be16 c.maxLocals ++ be32 (UInt32.ofNat c.code.length) ++ c.code ++
    handlers ++ attributes

end CodeAttribute

inductive AttributeBody where
  | code (body : CodeAttribute)
  | lines (rows : List LineRow)
  | locals (rows : List VariableRow)
  | sourceFile (index : UInt16)
deriving DecidableEq, Repr

inductive AttributeKind where
  | code | lines | locals | sourceFile
deriving DecidableEq, Repr

namespace AttributeKind

def all : List AttributeKind := [.code, .lines, .locals, .sourceFile]

def name : AttributeKind → String
  | .code => "Code"
  | .lines => "LineNumberTable"
  | .locals => "LocalVariableTable"
  | .sourceFile => "SourceFile"

def read : AttributeKind → Reader AttributeBody
  | .code => return .code (← CodeAttribute.read)
  | .lines => return .lines (← Reader.counted LineRow.read)
  | .locals => return .locals (← Reader.counted VariableRow.read)
  | .sourceFile => return .sourceFile (← Scan.u16)

end AttributeKind

namespace AttributeBody

def kind : AttributeBody → AttributeKind
  | .code _ => .code
  | .lines _ => .lines
  | .locals _ => .locals
  | .sourceFile _ => .sourceFile

def write : AttributeBody → Except Fault Bytes
  | .code body => body.write
  | .lines rows => writeCounted (fun r => .ok r.write) rows
  | .locals rows => writeCounted (fun r => .ok r.write) rows
  | .sourceFile index => .ok (be16 index)

/-- The attribute with this body; its name has to be in the pool already. -/
def toAttribute (body : AttributeBody) (pool : Pool) : Except Fault Attribute := do
  let nameIndex ← pool.indexOfText body.kind.name
  return ⟨nameIndex, ← body.write⟩

end AttributeBody

namespace Attribute

def decode (a : Attribute) (kind : AttributeKind) (pool : Pool) :
    Except Fault (Option AttributeBody) := do
  if (← a.name pool) = kind.name then
    match ← Reader.run kind.read a.info with
    | (body, ⟨_, []⟩) => return some body
    | _ => throw (.malformed (.trailingInAttribute kind.name))
  else return none

/-- The body as the first kind that has the name of the attribute. -/
def decodeAs (a : Attribute) (pool : Pool) :
    List AttributeKind → Except Fault (Option AttributeBody)
  | [] => .ok none
  | kind :: kinds => do
    match ← a.decode kind pool with
    | some body => return some body
    | none => a.decodeAs pool kinds

def find (kind : AttributeKind) (pool : Pool) :
    List Attribute → Except Fault (Option AttributeBody)
  | [] => .ok none
  | a :: rest =>
    match a.decode kind pool with
    | .error fault => .error fault
    | .ok (some body) => .ok (some body)
    | .ok none => find kind pool rest

def findCode (attributes : List Attribute) (pool : Pool) :
    Except Fault (Option CodeAttribute) := do
  match ← find .code pool attributes with
  | some (.code body) => return some body
  | _ => return none

def findLines (attributes : List Attribute) (pool : Pool) : Except Fault (List LineRow) := do
  match ← find .lines pool attributes with
  | some (.lines rows) => return rows
  | _ => return []

end Attribute

end JvmAssembly
