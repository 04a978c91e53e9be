import JvmAssembly.Builder.Basic
import JvmAssembly.ClassFile.Basic
import JvmAssembly.Draft.Resolve
import JvmAssembly.Pool.Numbering
import JvmAssembly.Warning

/-!
A class under construction. It owns the pool that the bodies of its methods are built over. To
finish it, everything that the class file names goes into the pool first; then indices are fixed,
and the bodies are resolved.
-/
namespace JvmAssembly

structure FieldDraft where
  flags : AccessFlags .field
  name : UnqualifiedName
  type : FieldType

structure MethodDraft where
  flags : AccessFlags .method
  name : UnqualifiedName
  descriptor : MethodDescriptor
  /-- Abstract and native methods have none. -/
  body : Option Draft

structure ClassDraft where
  pool : Pool
  flags : AccessFlags .cls
  name : BinaryName
  superclass : Option BinaryName
  interfaces : List BinaryName
  sourceFile : Option String
  fields : List FieldDraft
  methods : List MethodDraft

namespace FieldDraft

def intern (f : FieldDraft) : Interning Unit := do
  discard (Interning.text f.name.text)
  discard (Interning.text f.type.render)

def finish (f : FieldDraft) (pool : Pool) : Except Fault FieldInfo := do
  return ⟨f.flags, ← pool.indexOfText f.name.text, ← pool.indexOfText f.type.render, []⟩

end FieldDraft

namespace MethodDraft

def intern (m : MethodDraft) : Interning Unit := do
  discard (Interning.text m.name.text)
  discard (Interning.text m.descriptor.render)
  if m.body.isSome then discard (Interning.text AttributeKind.code.name)

def finishBody (pool : Pool) (d : Draft) : Except Fault Attribute := do
  let code ← (d.resolve pool).1
  (AttributeBody.code (← code.toAttribute pool)).toAttribute pool

def finish (m : MethodDraft) (pool : Pool) : Except Fault MethodInfo := do
  let nameIndex ← pool.indexOfText m.name.text
  let descriptorIndex ← pool.indexOfText m.descriptor.render
  let attributes ←
    match m.body with
    | some d => do pure [← finishBody pool d]
    | none => pure []
  return ⟨m.flags, nameIndex, descriptorIndex, attributes⟩

/-- An abstract or native method should have no body. -/
def warning? (m : MethodDraft) : Option Warning :=
  if m.body.isSome && m.flags.hasAny (MethodFlag.abstract ||| MethodFlag.native) then
    some (.uselessBody m.name.text)
  else none

end MethodDraft

namespace ClassDraft

def startBody (c : ClassDraft) (id : Nat) (descriptor : MethodDescriptor) (isStatic : Bool) :
    Except Fault Workspace :=
  (⟨c.pool, ·⟩) <$> Builder.create id c.name descriptor isStatic

structure Header where
  thisClass : ConstantRef
  superclass : Option ConstantRef
  interfaces : List ConstantRef

def internHeader (c : ClassDraft) : Interning Header := do
  let thisClass ← Interning.className c.name.text
  let superclass ←
    match c.superclass with
    | some name => some <$> Interning.className name.text
    | none => pure none
  let interfaces ← c.interfaces.mapM fun name => Interning.className name.text
  return ⟨thisClass, superclass, interfaces⟩

def intern (c : ClassDraft) : Interning Header := do
  let header ← c.internHeader
  if let some file := c.sourceFile then
    discard (Interning.text AttributeKind.sourceFile.name)
    discard (Interning.text file)
  c.fields.forM FieldDraft.intern
  c.methods.forM MethodDraft.intern
  return header

/-- The class file over a pool with final indices. -/
def layOut (c : ClassDraft) (version : Version) (header : Header) (pool : Pool) :
    Except Fault ClassFile := do
  checkTable .interfaces c.interfaces.length
  checkTable .fields c.fields.length
  checkTable .methods c.methods.length
  let thisClass ← pool.indexOf header.thisClass
  let superClass ←
    match header.superclass with
    | some entry => pool.indexOf entry
    | none => pure 0
  let interfaces ← header.interfaces.mapM pool.indexOf
  let fields ← c.fields.mapM (·.finish pool)
  let methods ← c.methods.mapM (·.finish pool)
  let attributes ←
    match c.sourceFile with
    | some file => do
      pure [← (AttributeBody.sourceFile (← pool.indexOfText file)).toAttribute pool]
    | none => pure []
  return ⟨version, pool, c.flags, thisClass, superClass, interfaces, fields, methods, attributes⟩

/-- Finishes the class. Constants that can be loaded come first in the pool. -/
def finish (c : ClassDraft) (version : Version) : Except Fault ClassFile := do
  let (header, pool) := c.intern c.pool
  c.layOut version header (← pool.assign .priority)

def warnings (c : ClassDraft) : List Warning := c.methods.filterMap (·.warning?)

end ClassDraft

end JvmAssembly
