import JvmAssembly.Draft.Basic

/-!
Edits of a draft. An edit checks its operands first; one that fails leaves the draft as it was.
-/
namespace JvmAssembly

/-- A change of a draft that may be refused. -/
abbrev Edit := ExceptT Fault (StateM Draft)

namespace Draft

/-- Adds a node that has no place yet. -/
def allocate (d : Draft) (i : Instruction) : Draft :=
  { d with nodes := d.nodes.push ⟨i, false⟩ }

def markPlaced (d : Draft) (node : NodeId) (placed : Bool) : Draft :=
  { d with nodes := d.nodes.modify node fun n => { n with placed } }

def placeLast (d : Draft) (node : NodeId) : Draft :=
  let d := d.markPlaced node true
  { d with order := d.order.push node }

def placeAfter (d : Draft) (anchor node : NodeId) : Draft :=
  let d := d.markPlaced node true
  match d.order.idxOf? anchor with
  | some i => { d with order := d.order.insertIdxIfInBounds (i + 1) node }
  | none => d

/-- A new label, which needs a place before the draft is resolved. -/
def createLabel (d : Draft) : Label × Draft :=
  let label : Label := ⟨d.id, d.nodes.size⟩
  (label, d.allocate .label)

def checkPlaceable (d : Draft) (label : Label) : Except Fault Unit :=
  match d.checkLabel label with
  | .error fault => .error fault
  | .ok () => if d.isPlacedNode label.node then .error (.duplicateLabel label) else .ok ()

def placeLabel (label : Label) : Edit Unit := fun d =>
  match d.checkPlaceable label with
  | .error fault => (.error fault, d)
  | .ok () => (.ok (), d.placeLast label.node)

def placeLabelAfter (anchor : NodeId) (label : Label) : Edit Unit := fun d =>
  match d.checkPlaced anchor with
  | .error fault => (.error fault, d)
  | .ok () =>
    match d.checkPlaceable label with
    | .error fault => (.error fault, d)
    | .ok () => (.ok (), d.placeAfter anchor label.node)

def push (i : Instruction) : Edit NodeId := fun d =>
  match d.checkInstruction i with
  | .error fault => (.error fault, d)
  | .ok () =>
    let node := d.nodes.size
    (.ok node, (d.allocate i).placeLast node)

def insertAfter (anchor : NodeId) (i : Instruction) : Edit NodeId := fun d =>
  match d.checkPlaced anchor with
  | .error fault => (.error fault, d)
  | .ok () =>
    match d.checkInstruction i with
    | .error fault => (.error fault, d)
    | .ok () =>
      let node := d.nodes.size
      (.ok node, (d.allocate i).placeAfter anchor node)

/-- The node may be taken out: it is placed and no label that is still needed. -/
def checkRemovable (d : Draft) (node : NodeId) : Except Fault Unit :=
  match d.checkPlaced node with
  | .error fault => .error fault
  | .ok () =>
    if (d.instructionAt node).isLabel && d.isReferenced ⟨d.id, node⟩ then
      .error (.referencedLabel ⟨d.id, node⟩)
    else .ok ()

/-- Takes a node out of the sequence; a label may be placed again later. -/
def remove (node : NodeId) : Edit Instruction := fun d =>
  match d.checkRemovable node with
  | .error fault => (.error fault, d)
  | .ok () =>
    let old := d.instructionAt node
    let d := d.markPlaced node false
    (.ok old, { d with order := d.order.erase node })

def setInstruction (d : Draft) (node : NodeId) (i : Instruction) : Draft :=
  { d with nodes := d.nodes.modify node fun n => { n with instruction := i } }

/-- Labels neither give way to other instructions nor take their place. -/
def checkReplacement (d : Draft) (node : NodeId) (i : Instruction) : Except Fault Unit :=
  match d.checkPlaced node with
  | .error fault => .error fault
  | .ok () =>
    if (d.instructionAt node).isLabel || i.isLabel then .error (.replacingLabel node)
    else d.checkInstruction i

def replace (node : NodeId) (i : Instruction) : Edit Instruction := fun d =>
  match d.checkReplacement node i with
  | .error fault => (.error fault, d)
  | .ok () =>
    let old := d.instructionAt node
    (.ok old, d.setInstruction node i)

def createLocal (d : Draft) (name : Option String) (type : FieldType) (fixedSlot : Option UInt16) :
    Local × Draft :=
  let v : Local := ⟨d.id, d.locals.size⟩
  (v, { d with locals := d.locals.push ⟨name, type, fixedSlot, fixedSlot⟩ })

def checkHandler (d : Draft) (h : Handler) : Except Fault Unit := do
  d.checkLabel h.start
  d.checkLabel h.stop
  d.checkLabel h.entry

def addHandler (h : Handler) : Edit Unit := fun d =>
  match d.checkHandler h with
  | .error fault => (.error fault, d)
  | .ok () => (.ok (), { d with handlers := d.handlers.push h })

/-- The code from here on belongs to a line of the source. -/
def markLine (d : Draft) (line : UInt16) : Draft :=
  let (label, d) := d.createLabel
  let d := d.placeLast label.node
  { d with lines := d.lines.push (label, line) }

def trackLocals (d : Draft) (track : Bool) : Draft := { d with tracksLocals := track }

def reserveSlots (d : Draft) (slots : UInt16) : Draft := { d with reservedSlots := slots }

end Draft

end JvmAssembly
