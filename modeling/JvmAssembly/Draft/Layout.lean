import JvmAssembly.Draft.Edit
import JvmAssembly.Draft.Encoding

/-!
Layout of a draft. Sizes depend on distances and distances on sizes, so layout runs in passes:
each writes the whole draft with the offsets known so far, and the last is one that moves no label
and knows every target.

A jump that is too far is widened for good. Unconditional jumps take their four-byte form; a
conditional one is inverted to hop over a far jump that is put behind it.
-/
namespace JvmAssembly

/-- Code, and the offset of every node in it. -/
structure Layout where
  code : Bytes
  offsets : Offsets

namespace Layout

/-- Offset of a node; what comes after the last node is at the end of the code. -/
def offsetOf (l : Layout) (node : Option NodeId) : UInt16 :=
  match node.bind l.offsets.of? with
  | some offset => UInt16.ofNat offset
  | none => UInt16.ofNat l.code.length

structure Pass where
  draft : Draft
  /-- Nodes written so far. -/
  order : Array NodeId
  offsets : Offsets
  code : Array UInt8
  /-- Whether a label got another offset than before. -/
  moved : Bool
  settled : Bool

namespace Pass

/-- Notes that a node stands at the end of the code. -/
def mark (p : Pass) (node : NodeId) (isLabel : Bool) : Pass :=
  let here := some p.code.size
  if p.offsets.of? node = here then p
  else { p with offsets := p.offsets.setIfInBounds node here, moved := p.moved || isLabel }

def write (p : Pass) (node : NodeId) (code : Bytes) (settled : Bool) : Pass :=
  { p with
    order := p.order.push node
    code := p.code ++ code
    settled := p.settled && settled }

def widenJump (p : Pass) (node : NodeId) (far : Opcode) (target : Label) (distance : Int) : Pass :=
  let p := { p with draft := p.draft.setInstruction node (.branch far target) }
  p.write node (far :: be32OfInt distance) true

/-- Inverts a conditional jump over a far one. The label behind the far jump is new, so the
inverted jump has its distance filled in by the next pass. -/
def widenCondition (p : Pass) (node : NodeId) (inverted : Opcode) (target : Label)
    (distance : Int) : Pass :=
  let (hop, draft) := p.draft.createLabel
  let jump := draft.nodes.size
  let draft := draft.allocate (.branch Opcode.goto_w target)
  let draft := (draft.markPlaced jump true).markPlaced hop.node true
  let draft := draft.setInstruction node (.branch inverted hop)
  let p := { p with draft, offsets := (p.offsets.push none).push none }
  let p := p.write node [inverted, 0, 0] false
  let p := p.mark jump false
  let p := p.write jump (Opcode.goto_w :: be32OfInt (distance - 3)) true
  let p := p.mark hop.node true
  p.write hop.node [] true

def widen (p : Pass) (node : NodeId) (opcode : Opcode) (target : Label) (distance : Int) :
    Except Fault Unit × Pass :=
  match opcode.farForm? with
  | some far => (.ok (), p.widenJump node far target distance)
  | none =>
    match opcode.invert? with
    | some inverted => (.ok (), p.widenCondition node inverted target distance)
    | none => (.error (.invalidOperand (.cannotWiden opcode)), p)

def step (pool : Pool) (p : Pass) (node : NodeId) : Except Fault Unit × Pass :=
  let i := p.draft.instructionAt node
  let p := p.mark node i.isLabel
  match p.draft.encode pool p.offsets p.code.size i with
  | .error fault => (.error fault, p)
  | .ok (.bytes code settled) => (.ok (), p.write node code settled)
  | .ok (.tooFar opcode target distance) => p.widen node opcode target distance

/-- Writes nodes in order; after a failure the rest keeps its place. -/
def run (pool : Pool) : List NodeId → Pass → Except Fault Unit × Pass
  | [], p => (.ok (), p)
  | node :: rest, p =>
    match p.step pool node with
    | (.ok (), p) => run pool rest p
    | (.error fault, p) => (.error fault, { p with order := p.order ++ (node :: rest) })

end Pass

/-- One pass over a draft; the draft that comes back has the nodes that widening put in. -/
def pass (pool : Pool) (d : Draft) (offsets : Offsets) : Except Fault Unit × Pass :=
  let order := d.order.toList
  let (result, p) := Pass.run pool order ⟨{ d with order := #[] }, #[], offsets, #[], false, true⟩
  match p with
  | ⟨draft, order, offsets, code, moved, settled⟩ =>
    (result, ⟨{ draft with order }, #[], offsets, code, moved, settled⟩)

/-- Passes until one moves no label and knows every target. -/
def settle (pool : Pool) : Nat → Offsets → Draft → Except Fault Layout × Draft
  | 0, _, d => (.error .unsettledLayout, d)
  | budget + 1, offsets, d =>
    match pass pool d offsets with
    | (.error fault, p) => (.error fault, p.draft)
    | (.ok (), p) =>
      if p.code.size > 65535 then (.error (.codeOverflow p.code.size), p.draft)
      else if !p.moved && p.settled then (.ok ⟨p.code.toList, p.offsets⟩, p.draft)
      else settle pool budget p.offsets p.draft

/-- Passes enough for any draft. One that is not the last moves a node forward, and no node goes
past the longest code. A widened condition adds two nodes, one of them a far jump, and the longest
code has room for 13107 of these. -/
def passBudget (d : Draft) : Nat := 26215 * 65536 * d.nodes.size + 1

end Layout

namespace Draft

/-- Writes the draft as code. Locals need slots and the pool needs indices. -/
def layout (pool : Pool) (d : Draft) : Except Fault Layout × Draft :=
  Layout.settle pool (Layout.passBudget d) (Array.replicate d.nodes.size none) d

end Draft

end JvmAssembly
