import JvmAssembly.Fault
import JvmAssembly.Instruction

/-!
A method draft: a sequence of nodes with symbolic instructions, open to edits at any place, and
the locals, handlers and line numbers that go with it. Nodes keep their numbers for good; those
that are not in the sequence are labels that wait for a place and nodes taken out.
-/
namespace JvmAssembly

structure Node where
  instruction : Instruction
  /-- Whether the node is in the sequence. -/
  placed : Bool
deriving DecidableEq, Repr

structure LocalInfo where
  name : Option String
  type : FieldType
  /-- A slot that allocation must not change. -/
  fixedSlot : Option UInt16
  /-- The slot of the last allocation, if the local was ever live. -/
  slot : Option UInt16

def LocalInfo.kind (l : LocalInfo) : LocalKind := .ofType l.type

/-- An exception handler over the nodes from `start` up to `stop`. -/
structure Handler where
  start : Label
  stop : Label
  entry : Label
  /-- The class of exceptions it catches; none catches everything. -/
  catchType : Option ConstantRef
deriving DecidableEq, Repr

structure Draft where
  /-- Tells the handles of this draft from those of others. -/
  id : Nat
  nodes : Array Node
  /-- Placed nodes in order. -/
  order : Array NodeId
  locals : Array LocalInfo
  handlers : Array Handler
  lines : Array (Label × UInt16)
  /-- Whether named locals are written to a table. -/
  tracksLocals : Bool
  /-- Slots of the receiver and the parameters. -/
  reservedSlots : UInt16

namespace Draft

def empty (id : Nat) : Draft := ⟨id, #[], #[], #[], #[], #[], false, 0⟩

def length (d : Draft) : Nat := d.order.size

def first? (d : Draft) : Option NodeId := d.order[0]?

def last? (d : Draft) : Option NodeId := d.order.back?

def next? (d : Draft) (node : NodeId) : Option NodeId :=
  match d.order.idxOf? node with
  | some i => d.order[i + 1]?
  | none => none

def previous? (d : Draft) (node : NodeId) : Option NodeId :=
  match d.order.idxOf? node with
  | some (i + 1) => d.order[i]?
  | _ => none

def isPlacedNode (d : Draft) (node : NodeId) : Bool :=
  match d.nodes[node]? with
  | some n => n.placed
  | none => false

def get? (d : Draft) (node : NodeId) : Option Instruction :=
  match d.nodes[node]? with
  | some n => if n.placed then some n.instruction else none
  | none => none

def instructionAt (d : Draft) (node : NodeId) : Instruction :=
  match d.nodes[node]? with
  | some n => n.instruction
  | none => .label

/-- Placed nodes with their instructions, in order. -/
def toList (d : Draft) : List (NodeId × Instruction) :=
  d.order.toList.map fun node => (node, d.instructionAt node)

def isPlaced (d : Draft) (label : Label) : Bool :=
  label.draft == d.id && d.isPlacedNode label.node

def checkLabel (d : Draft) (label : Label) : Except Fault Unit :=
  match d.nodes[label.node]? with
  | some ⟨.label, _⟩ => if label.draft = d.id then .ok () else .error (.foreignLabel label)
  | _ => .error (.foreignLabel label)

def localInfo (d : Draft) (v : Local) : Except Fault LocalInfo :=
  match d.locals[v.index]? with
  | some info => if v.draft = d.id then .ok info else .error (.foreignLocal v)
  | none => .error (.foreignLocal v)

def checkLocal (d : Draft) (v : Option Local) : Except Fault Unit :=
  match v with
  | none => .ok ()
  | some v =>
    match d.localInfo v with
    | .ok _ => .ok ()
    | .error fault => .error fault

/-- Refuses labels and locals of other drafts. -/
def checkInstruction (d : Draft) (i : Instruction) : Except Fault Unit := do
  i.targets.forM d.checkLabel
  d.checkLocal i.uses
  d.checkLocal i.defines

def checkPlaced (d : Draft) (node : NodeId) : Except Fault Unit :=
  if d.isPlacedNode node then .ok () else .error (.unlinkedNode node)

/-- Whether a jump, a handler or a line number needs the label. -/
def isReferenced (d : Draft) (label : Label) : Bool :=
  d.order.any (fun node => (d.instructionAt node).targets.contains label) ||
    d.handlers.any (fun h => h.start == label || h.stop == label || h.entry == label) ||
    d.lines.any (fun l => l.1 == label)

end Draft

end JvmAssembly
