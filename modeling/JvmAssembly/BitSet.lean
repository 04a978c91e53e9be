/-!
Sets of small numbers, one bit each, in blocks of 64. A set knows its capacity; the blocks cover
it and may reach past it.
-/
namespace JvmAssembly

structure BitSet where
  capacity : Nat
  blocks : Array UInt64
deriving DecidableEq

namespace BitSet

def empty (capacity : Nat) : BitSet :=
  ⟨capacity, Array.replicate ((capacity + 63) / 64) 0⟩

def bit (i : Nat) : UInt64 := (1 : UInt64) <<< UInt64.ofNat (i % 64)

/-- The bit of `i`, also past the capacity. -/
def getBit (s : BitSet) (i : Nat) : Bool :=
  s.blocks.getD (i / 64) 0 &&& bit i != 0

def contains (s : BitSet) (i : Nat) : Bool :=
  decide (i < s.capacity) && s.getBit i

/-- Adds an element below the capacity; the flag says whether it is new. -/
def insert (s : BitSet) (i : Nat) : BitSet × Bool :=
  if s.getBit i then (s, false)
  else ({ s with blocks := s.blocks.modify (i / 64) (· ||| bit i) }, true)

/-- Refuses elements outside the capacity. -/
def insert? (s : BitSet) (i : Nat) : Option (BitSet × Bool) :=
  if i < s.capacity then some (s.insert i) else none

def erase (s : BitSet) (i : Nat) : BitSet × Bool :=
  if s.contains i then
    ({ s with blocks := s.blocks.modify (i / 64) (· &&& ~~~bit i) }, true)
  else (s, false)

def union (s t : BitSet) : BitSet × Bool :=
  let blocks := s.blocks.mapIdx fun i b => b ||| t.blocks.getD i 0
  ({ s with blocks }, blocks != s.blocks)

def intersects (s t : BitSet) : Bool :=
  (s.blocks.zip t.blocks).any fun (a, b) => a &&& b != 0

def isEmpty (s : BitSet) : Bool :=
  s.blocks.all (· == 0)

def toList (s : BitSet) : List Nat :=
  (List.range (64 * s.blocks.size)).filter s.getBit

/-- Grows the last of the runs found so far by `i`, or starts a new one. -/
def extend (runs : List (Nat × Nat)) (i : Nat) : List (Nat × Nat) :=
  match runs with
  | (start, stop) :: rest => if stop = i then (start, i + 1) :: rest else (i, i + 1) :: runs
  | [] => [(i, i + 1)]

/-- Maximal runs of elements as half-open intervals, in increasing order. -/
def ranges (s : BitSet) : List (Nat × Nat) :=
  (s.toList.foldl extend []).reverse

def render (s : BitSet) : String :=
  "\x7b" ++ ", ".intercalate (s.toList.map toString) ++ "\x7d"

end BitSet

end JvmAssembly
