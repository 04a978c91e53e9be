import JvmAssembly.Draft.Basic

/-!
The control flow of a draft by position: what each placed node reads and writes, how it moves the
stack and where control goes next.
-/
namespace JvmAssembly

/-- A placed node as analyses see it; locals are numbers and targets are positions. -/
structure Point where
  uses : Option Nat
  defines : Option Nat
  adjustment : Int
  fallsThrough : Bool
  targets : List Nat
  isCall : Bool
  isRet : Bool
deriving DecidableEq, Repr

/-- A handler by position: it guards the positions from `start` up to `stop`. -/
structure Guard where
  start : Nat
  stop : Nat
  entry : Nat
deriving DecidableEq, Repr

structure Flow where
  points : Array Point
  guards : List Guard

namespace Draft

def positions (d : Draft) : Array (Option Nat) :=
  (d.order.foldl (fun (table, i) node => (table.setIfInBounds node (some i), i + 1))
    (Array.replicate d.nodes.size none, 0)).1

def positionOf (d : Draft) (positions : Array (Option Nat)) (label : Label) : Except Fault Nat :=
  match positions[label.node]? with
  | some (some i) => if label.draft = d.id then .ok i else .error (.unplacedLabel label)
  | _ => .error (.unplacedLabel label)

def pointOf (d : Draft) (positions : Array (Option Nat)) (node : NodeId) : Except Fault Point :=
  let i := d.instructionAt node
  match i.targets.mapM (d.positionOf positions) with
  | .error fault => .error fault
  | .ok targets =>
    .ok {
      uses := i.uses.map (·.index)
      defines := i.defines.map (·.index)
      adjustment := i.adjustment
      fallsThrough := i.fallsThrough
      targets
      isCall := i.isSubroutineCall
      isRet := match i with
        | .ret _ => true
        | _ => false }

def guardOf (d : Draft) (positions : Array (Option Nat)) (h : Handler) : Except Fault Guard := do
  return ⟨← d.positionOf positions h.start, ← d.positionOf positions h.stop,
    ← d.positionOf positions h.entry⟩

/-- The flow of a draft in which every label in use has a place. -/
def flow (d : Draft) : Except Fault Flow := do
  let positions := d.positions
  let points ← d.order.toList.mapM (d.pointOf positions)
  let guards ← d.handlers.toList.mapM (d.guardOf positions)
  return ⟨points.toArray, guards⟩

end Draft

namespace Flow

def size (f : Flow) : Nat := f.points.size

def returnPoints (f : Flow) : List Nat :=
  (List.range f.size).filter (fun i => decide (0 < i) && (f.points[i - 1]?.any (·.isCall)))

/-- Where control may go after a position without an exception. A return from a subroutine may
go behind any call. -/
def successors (f : Flow) (returnPoints : List Nat) (i : Nat) : List Nat :=
  match f.points[i]? with
  | none => []
  | some p =>
    (if p.fallsThrough && decide (i + 1 < f.size) then [i + 1] else []) ++ p.targets ++
      (if p.isRet then returnPoints else [])

/-- Adds a handler entry at the positions from `i` on, `n` of them. -/
def cover (entry : Nat) (table : Array (List Nat)) (i : Nat) : Nat → Array (List Nat)
  | 0 => table
  | n + 1 => cover entry (table.modify i (entry :: ·)) (i + 1) n

def handlerEntries (f : Flow) : Array (List Nat) :=
  f.guards.foldl (fun table g => cover g.entry table g.start (g.stop - g.start))
    (Array.replicate f.size [])

end Flow

end JvmAssembly
