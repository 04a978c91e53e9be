import JvmAssembly.BitSet
import JvmAssembly.Draft.Flow

/-!
Which locals hold a value that is still needed. A local is live on entry to a position that reads
it, or that it survives on the way to a position where it is live. An exception leaves a position
before anything is written there, so what a guarding handler needs is live on entry too.
-/
namespace JvmAssembly

/-- Positions on entry to and on exit from which one local is live. -/
structure LiveSets where
  entry : BitSet
  exit : BitSet

structure Liveness where
  sets : Array LiveSets

namespace Liveness

/-- Control flow as the equations need it. -/
structure Equations where
  points : Array Point
  successors : Array (List Nat)
  handlers : Array (List Nat)

def Equations.ofFlow (f : Flow) : Equations :=
  let returnPoints := f.returnPoints
  ⟨f.points, (Array.range f.size).map (f.successors returnPoints), f.handlerEntries⟩

/-- Live sets in the making; `grown` says that the current sweep added something. -/
structure Sweep where
  entry : BitSet
  exit : BitSet
  grown : Bool

/-- Applies the equations of one position to one local. -/
def Sweep.visit (eqs : Equations) (v i : Nat) (s : Sweep) : Sweep :=
  match s with
  | ⟨entry, exit, grown⟩ =>
    let atHandler := (eqs.handlers.getD i []).any entry.contains
    let out := (eqs.successors.getD i []).any entry.contains
    let point := eqs.points[i]?
    let into := point.any (fun p => p.uses == some v) ||
      (out && !point.any (fun p => p.defines == some v)) || atHandler
    let (exit, grownOut) := if out then exit.insert i else (exit, false)
    let (entry, grownIn) := if into then entry.insert i else (entry, false)
    ⟨entry, exit, grown || grownOut || grownIn⟩

def Sweep.run (eqs : Equations) (v : Nat) : Nat → Sweep → Sweep
  | 0, s => s
  | i + 1, s => Sweep.run eqs v i (s.visit eqs v i)

/-- Sweeps until nothing is added. Every sweep but the last adds to one of two sets, so twice the
number of positions is budget enough. -/
def Sweep.settle (eqs : Equations) (v : Nat) : Nat → Sweep → Sweep
  | 0, s => s
  | budget + 1, s =>
    let s := Sweep.run eqs v eqs.points.size { s with grown := false }
    if s.grown then Sweep.settle eqs v budget s else s

/-- Live sets of one local; one that is never read is never live. -/
def ofLocal (eqs : Equations) (v : Nat) : LiveSets :=
  let n := eqs.points.size
  if eqs.points.any (fun p => p.uses == some v) then
    let s := Sweep.settle eqs v (2 * n + 1) ⟨.empty n, .empty n, false⟩
    ⟨s.entry, s.exit⟩
  else ⟨.empty n, .empty n⟩

def ofFlow (f : Flow) (count : Nat) : Liveness :=
  let eqs := Equations.ofFlow f
  ⟨(Array.range count).map (ofLocal eqs)⟩

def entryOf (l : Liveness) (v : Nat) : BitSet :=
  match l.sets[v]? with
  | some s => s.entry
  | none => .empty 0

def exitOf (l : Liveness) (v : Nat) : BitSet :=
  match l.sets[v]? with
  | some s => s.exit
  | none => .empty 0

/-- Positions at which the local is live on either side. -/
def live (l : Liveness) (v : Nat) : BitSet :=
  ((l.entryOf v).union (l.exitOf v)).1

end Liveness

end JvmAssembly
