import JvmAssembly.Pool.Basic

/-!
Handing out class file indices. They start at one, a wide entry takes two, and the last index in
use stays below 65535.
-/
namespace JvmAssembly

inductive IndexOrder where
  /-- Order of insertion. -/
  | preserve
  /-- Entries that the short load can reach first, else order of insertion. -/
  | priority
deriving DecidableEq, Repr

namespace Pool

def ordered (p : Pool) : IndexOrder → List ConstantRef
  | .preserve => List.range p.size
  | .priority =>
    let isPriority (ref : ConstantRef) : Bool := p.entries[ref]?.any (·.isPriority)
    let (first, rest) := (List.range p.size).partition isPriority
    first ++ rest

/-- Gives the next entry the first unused index. -/
def number (p : Pool) (n : Numbering) (ref : ConstantRef) : Except Fault Numbering :=
  match p.entries[ref]? with
  | none => .error (.noSuchEntry ref)
  | some c =>
    let index := n.entryAt.size
    if index + c.width > 65535 then .error (.poolOverflow c index)
    else
      match n with
      | ⟨order, indices, entryAt⟩ =>
        let entryAt := entryAt.push (some ref)
        .ok ⟨order.push ref, indices.setIfInBounds ref (UInt16.ofNat index),
          if c.width = 2 then entryAt.push none else entryAt⟩

def numberAll (p : Pool) : Numbering → List ConstantRef → Except Fault Numbering
  | n, [] => .ok n
  | n, ref :: rest =>
    match p.number n ref with
    | .ok n => numberAll p n rest
    | .error fault => .error fault

/-- Decides the index of every entry, or changes nothing. -/
def assign (p : Pool) (order : IndexOrder) : Except Fault Pool :=
  match p.numberAll ⟨#[], Array.replicate p.size 0, #[none]⟩ (p.ordered order) with
  | .ok n => .ok { p with numbering := some n }
  | .error fault => .error fault

end Pool

end JvmAssembly
