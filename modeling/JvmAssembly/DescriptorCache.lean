import JvmAssembly.Fault
import Std.Data.HashMap

/-!
A cache of parsed descriptors, so that each text is parsed once. Fields and methods are kept
apart, and a text that does not parse is not kept.
-/
namespace JvmAssembly

/-- Values by text, numbered in the order in which they came. -/
structure Interned (α : Type) where
  values : Array α
  numbers : Std.HashMap String Nat

namespace Interned

variable {α : Type}

def empty : Interned α := ⟨#[], ∅⟩

/-- The number and the value of a text, which is parsed if it is new. -/
def lookup (parse : String → Except Fault α) (text : String) (c : Interned α) :
    Except Fault (Nat × α) × Interned α :=
  match c.numbers[text]?.bind fun n => c.values[n]?.map fun a => (n, a) with
  | some known => (.ok known, c)
  | none =>
    match parse text with
    | .error fault => (.error fault, c)
    | .ok a =>
      match c with
      | ⟨values, numbers⟩ =>
        let n := values.size
        (.ok (n, a), ⟨values.push a, numbers.insert text n⟩)

end Interned

structure DescriptorCache where
  methods : Interned MethodDescriptor
  fields : Interned FieldType

namespace DescriptorCache

def empty : DescriptorCache := ⟨.empty, .empty⟩

def method (text : String) (c : DescriptorCache) :
    Except Fault (Nat × MethodDescriptor) × DescriptorCache :=
  let (result, methods) := c.methods.lookup MethodDescriptor.ofText text
  (result, { c with methods })

def field (text : String) (c : DescriptorCache) :
    Except Fault (Nat × FieldType) × DescriptorCache :=
  let (result, fields) := c.fields.lookup FieldType.ofText text
  (result, { c with fields })

end DescriptorCache

end JvmAssembly
