import JvmAssembly.ClassFile.Attribute
import JvmAssembly.Draft.Layout
import JvmAssembly.Draft.Slots
import JvmAssembly.Draft.StackDepth

/-!
From a draft to a finished method body: locals get slots, stores that are never read turn into
pops, the stack depth is found, and the code is laid out.
-/
namespace JvmAssembly

/-- A finished body. The tables for debugging stay apart from the code. -/
structure Code where
  maxStack : UInt16
  maxLocals : UInt16
  code : Bytes
  handlers : List HandlerRow
  lines : List LineRow
  locals : List VariableRow
deriving DecidableEq, Repr

namespace Code

def toAttribute (c : Code) (pool : Pool) : Except Fault CodeAttribute := do
  checkTable .exceptions c.handlers.length
  let mut attributes := []
  if !c.lines.isEmpty then
    checkTable .lines c.lines.length
    attributes := attributes ++ [← (AttributeBody.lines c.lines).toAttribute pool]
  if !c.locals.isEmpty then
    checkTable .locals c.locals.length
    attributes := attributes ++ [← (AttributeBody.locals c.locals).toAttribute pool]
  return ⟨c.maxStack, c.maxLocals, c.code, c.handlers, attributes⟩

end Code

namespace Draft

/-- The row of a handler, unless it guards no bytes. -/
def handlerRow (pool : Pool) (l : Layout) (h : Handler) : Except Fault (Option HandlerRow) := do
  let startPc := l.offsetOf (some h.start.node)
  let endPc := l.offsetOf (some h.stop.node)
  if startPc ≥ endPc then return none
  else
    let catchType ← match h.catchType with
      | some entry => pool.indexOf entry
      | none => pure 0
    return some ⟨startPc, endPc, l.offsetOf (some h.entry.node), catchType⟩

def lineRow (l : Layout) (line : Label × UInt16) : LineRow :=
  ⟨l.offsetOf (some line.1.node), line.2⟩

/-- The row of a live range, unless it has no bytes. -/
def variableRow (pool : Pool) (l : Layout) (d : Draft) (range : LiveRange) :
    Except Fault (Option VariableRow) := do
  let startPc := l.offsetOf (some range.start)
  let endPc := l.offsetOf range.stop
  if startPc ≥ endPc then return none
  else
    match d.locals[range.which]? with
    | some ⟨some name, type, _, some slot⟩ =>
      let nameIndex ← pool.indexOfText name
      let descriptorIndex ← pool.indexOfText type.render
      return some ⟨startPc, endPc - startPc, nameIndex, descriptorIndex, slot⟩
    | _ => return none

def assemble (pool : Pool) (l : Layout) (d : Draft) (maxStack maxLocals : UInt16)
    (ranges : List LiveRange) : Except Fault Code := do
  let handlers ← d.handlers.toList.mapM (handlerRow pool l)
  let locals ← ranges.mapM (variableRow pool l d)
  return {
    maxStack, maxLocals, code := l.code
    handlers := handlers.filterMap fun row => row
    lines := d.lines.toList.map (lineRow l)
    locals := locals.filterMap fun row => row }

/-- Resolves the draft against a pool whose indices are final. What was decided before a failure
stays in the draft. -/
def resolve (pool : Pool) (d : Draft) : Except Fault Code × Draft :=
  match d.flow with
  | .error fault => (.error fault, d)
  | .ok flow =>
    let liveness := Liveness.ofFlow flow d.locals.size
    match allocateSlots liveness d with
    | (.error fault, d) => (.error fault, d)
    | (.ok maxLocals, d) =>
      let d := d.markDeadStores liveness
      let ranges := if d.tracksLocals then d.liveRanges liveness else []
      match flow.maxStack with
      | .error fault => (.error fault, d)
      | .ok maxStack =>
        match d.layout pool with
        | (.error fault, d) => (.error fault, d)
        | (.ok l, d) => (d.assemble pool l maxStack maxLocals ranges, d)

end Draft

end JvmAssembly
