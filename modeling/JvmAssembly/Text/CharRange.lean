/-!
Classes of characters as tables: inclusive ranges of code points, in increasing order.
-/
namespace JvmAssembly

/-- First and last code point of a run of characters. -/
abbrev CharRange := Nat × Nat

def CharRange.anyContains (ranges : Array CharRange) (c : Char) : Bool :=
  ranges.any fun r => decide (r.1 ≤ c.toNat) && decide (c.toNat ≤ r.2)

end JvmAssembly
