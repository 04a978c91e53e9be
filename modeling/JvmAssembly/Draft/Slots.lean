import JvmAssembly.Draft.Edit
import JvmAssembly.Draft.Liveness

/-!
Slots for locals. Fixed slots are claimed first; then every other local, in order of declaration,
takes the lowest slots whose occupants are never live together with it.
-/
namespace JvmAssembly

structure Allocation where
  locals : Array LocalInfo
  /-- Positions at which each slot is taken. -/
  occupied : Array BitSet
  /-- One more than the highest slot in use. -/
  frame : Nat

namespace Allocation

def occupy (occupied : Array BitSet) (live : BitSet) (slot : Nat) : Array BitSet :=
  let missing := slot + 1 - occupied.size
  let occupied := occupied ++ Array.replicate missing (.empty live.capacity)
  occupied.modify slot fun taken => (taken.union live).1

def occupyAll (occupied : Array BitSet) (live : BitSet) (slot width : Nat) : Array BitSet :=
  (List.range width).foldl (fun occupied i => occupy occupied live (slot + i)) occupied

def claim (a : Allocation) (live : BitSet) (slot width : Nat) : Allocation :=
  match a with
  | ⟨locals, occupied, frame⟩ =>
    ⟨locals, occupyAll occupied live slot width, max frame (slot + width)⟩

def claimFixed (liveness : Liveness) (a : Allocation) (v : Nat) : Allocation :=
  match a.locals[v]? with
  | some ⟨_, type, some slot, _⟩ =>
    a.claim (liveness.live v) slot.toNat (LocalKind.ofType type).width
  | _ => a

def conflicts (occupied : Array BitSet) (live : BitSet) (slot : Nat) : Bool :=
  match occupied[slot]? with
  | some taken => taken.intersects live
  | none => false

/-- The lowest slot with room for a local; slots past the last one in use are free. -/
def firstFit (occupied : Array BitSet) (live : BitSet) (width : Nat) : Nat :=
  let fits (slot : Nat) : Bool :=
    (List.range width).all fun i => !conflicts occupied live (slot + i)
  ((List.range occupied.size).find? fits).getD occupied.size

def setSlot (a : Allocation) (v : Nat) (slot : Option UInt16) : Allocation :=
  { a with locals := a.locals.modify v fun l => { l with slot } }

/-- Gives a slot to a local without a fixed one, if it is ever live. -/
def place (liveness : Liveness) (v : Nat) (a : Allocation) : Except Fault Unit × Allocation :=
  match a.locals[v]? with
  | some ⟨_, type, none, _⟩ =>
    let live := liveness.live v
    if live.isEmpty then (.ok (), a.setSlot v none)
    else
      let width := (LocalKind.ofType type).width
      let slot := firstFit a.occupied live width
      if slot + width > 65535 then (.error (.maxLocalsOverflow (slot + width)), a)
      else (.ok (), (a.claim live slot width).setSlot v (some (UInt16.ofNat slot)))
  | _ => (.ok (), a)

def placeAll (liveness : Liveness) : List Nat → Allocation → Except Fault Unit × Allocation
  | [], a => (.ok (), a)
  | v :: vs, a =>
    match place liveness v a with
    | (.ok (), a) => placeAll liveness vs a
    | (.error fault, a) => (.error fault, a)

end Allocation

namespace Draft

/-- Gives slots to all locals and answers the size of the frame. Locals placed before a failure
keep their slots. -/
def allocateSlots (liveness : Liveness) : Edit UInt16 := fun d =>
  let locals := d.locals
  let d := { d with locals := #[] }
  let all := List.range locals.size
  let fixed := all.foldl (Allocation.claimFixed liveness) ⟨locals, #[], d.reservedSlots.toNat⟩
  match Allocation.placeAll liveness all fixed with
  | (.error fault, a) => (.error fault, { d with locals := a.locals })
  | (.ok (), a) =>
    let d := { d with locals := a.locals }
    if a.frame > 65535 then (.error (.maxLocalsOverflow a.frame), d)
    else (.ok (UInt16.ofNat a.frame), d)

/-- Marks a store whose value is not needed after its position. -/
def markStore (liveness : Liveness) (nodes : Array Node) (i : Nat) (node : NodeId) : Array Node :=
  nodes.modify node fun n =>
    match n.instruction with
    | .store target kind _ =>
      { n with instruction := .store target kind (!(liveness.exitOf target.index).contains i) }
    | _ => n

def markDeadStores (liveness : Liveness) (d : Draft) : Draft :=
  match d with
  | ⟨id, nodes, order, locals, handlers, lines, tracksLocals, reservedSlots⟩ =>
    let (nodes, _) := order.foldl
      (fun (nodes, i) node => (markStore liveness nodes i node, i + 1)) (nodes, 0)
    ⟨id, nodes, order, locals, handlers, lines, tracksLocals, reservedSlots⟩

/-- A stretch of nodes on entry to which a named local is live. -/
structure LiveRange where
  which : Nat
  start : NodeId
  /-- The first node after the stretch, if there is one. -/
  stop : Option NodeId

/-- Live ranges of the locals that have a name and a slot. -/
def liveRanges (liveness : Liveness) (d : Draft) : List LiveRange :=
  (List.range d.locals.size).flatMap fun (v : Nat) =>
    match d.locals[v]? with
    | some ⟨some _, _, _, some _⟩ =>
      (liveness.entryOf v).ranges.filterMap fun (start, stop) =>
        (d.order[start]?).map fun node => LiveRange.mk v node d.order[stop]?
    | _ => []

end Draft

end JvmAssembly
