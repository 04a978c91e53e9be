import JvmAssembly.Builder.Replay
import JvmAssembly.ClassDraft

/-!
Assembling a class again: every method body is disassembled and built anew. Indices of the pool
stay as they are and new constants come after them, so nothing outside of the bodies changes.
Tables that describe code by address are dropped, line numbers apart.
-/
namespace JvmAssembly

namespace Reassembly

structure Settings where
  keepLines : Bool
  /-- Whether an instruction that cannot be disassembled is a fault. Otherwise its method keeps
  its body. -/
  strict : Bool

def Settings.standard : Settings := ⟨true, false⟩

structure Previous where
  descriptor : String
  code : CodeAttribute
  lines : List LineRow

def previous? (settings : Settings) (pool : Pool) (m : MethodInfo) :
    Except Fault (Option Previous) := do
  match ← m.code pool with
  | none => return none
  | some code =>
    let lines ← if settings.keepLines then Attribute.findLines code.attributes pool else pure []
    return some ⟨← pool.textAt m.descriptorIndex, code, lines⟩

structure Progress where
  pool : Pool
  warnings : Array Warning

/-- Work on a pool that may warn. Warnings outlive a failure. -/
abbrev Task := ExceptT Fault (StateM Progress)

def lift {α : Type} (x : Except Fault α) : Task α := fun p => (x, p)

def warn (w : Warning) : Task Unit := fun p =>
  match p with
  | ⟨pool, warnings⟩ => (.ok (), ⟨pool, warnings.push w⟩)

/-- What is needed of a class to read the bodies of its methods. -/
structure Context where
  settings : Settings
  table : Pool.IndexTable
  name : BinaryName

def copy (b : Body) (c : Context) (builder : Builder) : Task (Copied × Draft) := fun p =>
  match p with
  | ⟨pool, warnings⟩ =>
    let (copied, ⟨pool, builder⟩) := b.copyInto c.table none none ⟨pool, builder⟩
    (.ok (copied, builder.draft), ⟨pool, warnings⟩)

/-- The pool may not say what a method is called. -/
def keptBody (pool : Pool) (m : MethodInfo) (r : Report) : Warning :=
  .keptBody (pool.textAt m.nameIndex).toOption (pool.textAt m.descriptorIndex).toOption r

/-- The new body of a method, unless the method keeps the one it has. -/
def rebuild (c : Context) (id : Nat) (m : MethodInfo) (previous : Previous) :
    Task (Option Draft) := do
  let descriptor ← lift (MethodDescriptor.ofText previous.descriptor)
  let isStatic := m.flags.hasAny MethodFlag.static
  let body : Body := {
    className := c.name.text
    descriptor
    isStatic
    code := previous.code.code
    handlers := previous.code.handlers
    lines := previous.lines }
  let (copied, draft) ← copy body c (← lift (Builder.create id c.name descriptor isStatic))
  copied.stray.forM fun address => warn (.strayTarget address)
  match copied.fault, copied.reports with
  | some fault, _ => throw fault
  | none, [] => return some draft
  | none, r :: _ =>
    if c.settings.strict then throw (.unsupportedInstruction r.address r.opcode)
    else
      warn (keptBody (← get).pool m r)
      return none

def rebuildAll (c : Context) (done : Array (MethodInfo × Option Draft)) (id : Nat) :
    List (MethodInfo × Option Previous) → Task (List (MethodInfo × Option Draft))
  | [] => return done.toList
  | (m, none) :: rest => rebuildAll c (done.push (m, none)) (id + 1) rest
  | (m, some previous) :: rest => do
    let draft ← rebuild c id m previous
    rebuildAll c (done.push (m, draft)) (id + 1) rest

/-- Puts a new body in the place of the first one. -/
def replaceCode (pool : Pool) (code : Attribute) : List Attribute → Except Fault (List Attribute)
  | [] => .ok []
  | a :: rest => do
    if (← a.name pool) = AttributeKind.code.name then return code :: rest
    else return a :: (← replaceCode pool code rest)

def finishMethod (pool : Pool) : MethodInfo × Option Draft → Except Fault MethodInfo
  | (m, none) => .ok m
  | (m, some draft) => do
    let code ← MethodDraft.finishBody pool draft
    return { m with attributes := ← replaceCode pool code m.attributes }

/-- Reads everything that refers to the pool as it was. -/
def prepare (settings : Settings) (f : ClassFile) :
    Except Fault (Context × List (MethodInfo × Option Previous)) := do
  let table ← f.pool.indexTable
  let name ← BinaryName.ofText (← f.className)
  let methods ← f.methods.mapM fun m => do return (m, ← previous? settings f.pool m)
  return (⟨settings, table, name⟩, methods)

/-- Fixes the indices of new constants and resolves the new bodies. -/
def finish (f : ClassFile) (pool : Pool) (methods : List (MethodInfo × Option Draft)) :
    Except Fault ClassFile := do
  let (_, pool) := Interning.text AttributeKind.code.name pool
  let pool ← pool.assign .preserve
  return { f with pool, methods := ← methods.mapM (finishMethod pool) }

end Reassembly

def ClassFile.reassemble (f : ClassFile) (settings : Reassembly.Settings) :
    Except Fault ClassFile × List Warning :=
  match Reassembly.prepare settings f with
  | .error fault => (.error fault, [])
  | .ok (context, methods) =>
    match Reassembly.rebuildAll context #[] 0 methods ⟨f.pool, #[]⟩ with
    | (.error fault, p) => (.error fault, p.warnings.toList)
    | (.ok methods, p) => (Reassembly.finish f p.pool methods, p.warnings.toList)

end JvmAssembly
