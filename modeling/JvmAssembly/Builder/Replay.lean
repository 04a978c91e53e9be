import JvmAssembly.Builder.Basic
import JvmAssembly.Disassembly.Script

/-!
Carrying out a script on a builder: the way to copy a method body into another one.
-/
namespace JvmAssembly

structure Bindings where
  labels : Array Label
  locals : Array Local

namespace Bindings

def empty : Bindings := ⟨#[], #[]⟩

/-- A label that is not made yet is one of no draft, which every operation refuses. -/
def label (b : Bindings) (d : Draft) : Handle Label → Label
  | .given l => l
  | .made n => b.labels.getD n ⟨d.id, d.nodes.size⟩

def var (b : Bindings) (d : Draft) : Handle Local → Local
  | .given v => v
  | .made n => b.locals.getD n ⟨d.id, d.locals.size⟩

def add (b : Bindings) : Made → Bindings
  | .nothing => b
  | .label l => match b with | ⟨labels, locals⟩ => ⟨labels.push l, locals⟩
  | .var v => match b with | ⟨labels, locals⟩ => ⟨labels, locals.push v⟩

end Bindings

namespace Emit

def run (b : Bindings) : List (Op (Handle Label) (Handle Local)) → Emit Unit
  | [], ws => (.ok (), ws)
  | op :: ops, ws =>
    let op := op.map (b.label ws.builder.draft) (b.var ws.builder.draft)
    match perform op ws with
    | (.error fault, ws) => (.error fault, ws)
    | (.ok made, ws) => run (b.add made) ops ws

end Emit

structure Copied where
  fault : Option Fault
  reports : List Report
  /-- Targets that are no addresses of instructions, if all went well. -/
  stray : List Nat

/-- Copies a body into a builder. The arguments default to those of the builder itself. -/
def Body.copyInto (b : Body) (table : Pool.IndexTable) (arguments : Option (List Local))
    (exit : Option Label) (ws : Workspace) : Copied × Workspace :=
  let d := b.disassemble ⟨ws.pool, table⟩ (fun v => (·.type) <$> ws.builder.draft.localInfo v)
    (arguments.getD ws.builder.arguments) exit
  match Emit.run .empty d.ops ws with
  | (.error fault, ws) => (⟨some fault, d.reports, []⟩, ws)
  | (.ok (), ws) => (⟨d.fault, d.reports, d.stray⟩, ws)

end JvmAssembly
