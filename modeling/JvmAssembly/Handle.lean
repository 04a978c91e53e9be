/-!
Handles into a method draft. Labels and locals remember their draft, so that one draft can tell
the handles of another from its own.
-/
namespace JvmAssembly

/-- Number of a node in its draft: given in order of creation and never again. -/
abbrev NodeId := Nat

structure Label where
  draft : Nat
  node : NodeId
deriving DecidableEq, Repr

/-- A local variable, by order of declaration. -/
structure Local where
  draft : Nat
  index : Nat
deriving DecidableEq, Repr

end JvmAssembly
