import JvmAssembly.Fault
import Std.Data.HashMap

/-!
A constant pool: entries in order of insertion, each constant interned once. Class file indices
are a separate matter, decided when all constants are known; a new entry makes them void.
-/
namespace JvmAssembly

/-- Class file indices of all entries of a pool. -/
structure Numbering where
  /-- Entries in the order of their indices. -/
  order : Array ConstantRef
  /-- Index of each entry. -/
  indices : Array UInt16
  /-- Entry at each index, up to the first unused one. -/
  entryAt : Array (Option ConstantRef)

structure Pool where
  entries : Array Constant
  /-- First entry of each constant. -/
  lookup : Std.HashMap Constant ConstantRef
  numbering : Option Numbering

namespace Pool

def empty : Pool := ⟨#[], ∅, none⟩

def size (p : Pool) : Nat := p.entries.size

def isNumbered (p : Pool) : Bool := p.numbering.isSome

def find? (p : Pool) (c : Constant) : Option ConstantRef := p.lookup[c]?

/-- Appends an entry, also when an equal one exists. -/
def append (p : Pool) (c : Constant) : Pool :=
  match p with
  | ⟨entries, lookup, _⟩ =>
    let ref := entries.size
    ⟨entries.push c, lookup.insertIfNew c ref, none⟩

def intern (p : Pool) (c : Constant) : ConstantRef × Pool :=
  match p.find? c with
  | some ref => (ref, p)
  | none =>
    let ref := p.size
    (ref, p.append c)

def get (p : Pool) (ref : ConstantRef) : Except Fault Constant :=
  match p.entries[ref]? with
  | some c => .ok c
  | none => .error (.noSuchEntry ref)

def indexOf (p : Pool) (ref : ConstantRef) : Except Fault UInt16 :=
  match p.numbering with
  | none => .error (.indexUnassigned ref)
  | some n =>
    match n.indices[ref]? with
    | some index => .ok index
    | none => .error (.noSuchEntry ref)

def indexOfConstant (p : Pool) (c : Constant) : Except Fault UInt16 :=
  match p.find? c with
  | some ref => p.indexOf ref
  | none => .error (.notInterned c)

def indexOfText (p : Pool) (text : String) : Except Fault UInt16 :=
  p.indexOfConstant (.utf8 text)

/-- Entries by class file index, as they were at some moment. -/
abbrev IndexTable := Array (Option ConstantRef)

def IndexTable.lookup (table : IndexTable) (index : UInt16) : Except Fault ConstantRef :=
  match table[index.toNat]? with
  | some (some ref) => .ok ref
  | _ => .error (.missingConstant index)

def indexTable (p : Pool) : Except Fault IndexTable :=
  match p.numbering with
  | some n => .ok n.entryAt
  | none => .error (.missingConstant 0)

def entryAt (p : Pool) (index : UInt16) : Except Fault ConstantRef :=
  match p.numbering with
  | some n => IndexTable.lookup n.entryAt index
  | none => .error (.missingConstant index)

def getText (p : Pool) (ref : ConstantRef) : Except Fault String := do
  match ← p.get ref with
  | .utf8 text => return text
  | other => throw (.unexpectedConstant other .utf8)

def getClassName (p : Pool) (ref : ConstantRef) : Except Fault String := do
  match ← p.get ref with
  | .classInfo name => p.getText name
  | other => throw (.unexpectedConstant other .classInfo)

def getNameAndType (p : Pool) (ref : ConstantRef) : Except Fault (String × String) := do
  match ← p.get ref with
  | .nameAndType name descriptor => return (← p.getText name, ← p.getText descriptor)
  | other => throw (.unexpectedConstant other .nameAndType)

structure Member where
  owner : String
  name : String
  descriptor : String
  isInterface : Bool
deriving DecidableEq, Repr

def getMember (p : Pool) (ref : ConstantRef) : Except Fault Member := do
  let (owner, member, isInterface) ←
    match ← p.get ref with
    | .fieldRef owner member => pure (owner, member, false)
    | .methodRef owner member isInterface => pure (owner, member, isInterface)
    | other => throw (.unexpectedConstant other .member)
  let (name, descriptor) ← p.getNameAndType member
  return ⟨← p.getClassName owner, name, descriptor, isInterface⟩

def textAt (p : Pool) (index : UInt16) : Except Fault String := do
  p.getText (← p.entryAt index)

def classNameAt (p : Pool) (index : UInt16) : Except Fault String := do
  p.getClassName (← p.entryAt index)

end Pool

abbrev Interning := StateM Pool

namespace Interning

def constant (c : Constant) : Interning ConstantRef := modifyGet fun p => p.intern c

def text (s : String) : Interning ConstantRef := constant (.utf8 s)

def string (s : String) : Interning ConstantRef := do
  constant (.string (← text s))

def className (name : String) : Interning ConstantRef := do
  constant (.classInfo (← text name))

def cls (r : RefType) : Interning ConstantRef := className r.className

def nameAndType (name descriptor : String) : Interning ConstantRef := do
  let name ← text name
  let descriptor ← text descriptor
  constant (.nameAndType name descriptor)

def fieldRef (owner : BinaryName) (name : String) (type : FieldType) : Interning ConstantRef := do
  let owner ← className owner.text
  let member ← nameAndType name type.render
  constant (.fieldRef owner member)

def methodRef (owner : RefType) (name : String) (descriptor : MethodDescriptor)
    (isInterface : Bool) : Interning ConstantRef := do
  let owner ← cls owner
  let member ← nameAndType name descriptor.render
  constant (.methodRef owner member isInterface)

def methodType (descriptor : MethodDescriptor) : Interning ConstantRef := do
  constant (.methodType (← text descriptor.render))

end Interning

end JvmAssembly
