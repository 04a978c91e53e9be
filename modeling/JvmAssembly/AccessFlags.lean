/-!
Access flags of classes, fields and methods: a word of which only the declared bits are kept.
-/
namespace JvmAssembly

inductive FlagOwner where
  | cls | field | method
deriving DecidableEq, Repr

/-- Declared flags of each owner, lowest bit first. -/
def FlagOwner.flags : FlagOwner → List (UInt16 × String)
  | .cls =>
    [(0x0001, "PUBLIC"), (0x0010, "FINAL"), (0x0020, "SUPER"), (0x0200, "INTERFACE"),
      (0x0400, "ABSTRACT"), (0x1000, "SYNTHETIC"), (0x2000, "ANNOTATION"), (0x4000, "ENUM"),
      (0x8000, "MODULE")]
  | .method =>
    [(0x0001, "PUBLIC"), (0x0002, "PRIVATE"), (0x0004, "PROTECTED"), (0x0008, "STATIC"),
      (0x0010, "FINAL"), (0x0020, "SYNCHRONIZED"), (0x0040, "BRIDGE"), (0x0080, "VARARGS"),
      (0x0100, "NATIVE"), (0x0400, "ABSTRACT"), (0x0800, "STRICT"), (0x1000, "SYNTHETIC")]
  | .field =>
    [(0x0001, "PUBLIC"), (0x0002, "PRIVATE"), (0x0004, "PROTECTED"), (0x0008, "STATIC"),
      (0x0010, "FINAL"), (0x0040, "VOLATILE"), (0x0080, "TRANSIENT"), (0x1000, "SYNTHETIC"),
      (0x4000, "ENUM")]

def FlagOwner.mask (owner : FlagOwner) : UInt16 :=
  owner.flags.foldl (fun bits flag => bits ||| flag.1) 0

structure AccessFlags (owner : FlagOwner) where
  bits : UInt16
  declared : bits &&& owner.mask = bits
deriving DecidableEq, Repr

namespace AccessFlags

variable {owner : FlagOwner}

/-- Undeclared bits are dropped. -/
def ofBits (bits : UInt16) : AccessFlags owner :=
  ⟨bits &&& owner.mask, by rw [UInt16.and_assoc, UInt16.and_self]⟩

def hasAny (f : AccessFlags owner) (bits : UInt16) : Bool := f.bits &&& bits != 0

/-- Names of the flags that are set, in order of declaration. -/
def names (f : AccessFlags owner) : String :=
  match owner.flags.filter fun flag => f.hasAny flag.1 with
  | [] => "(empty)"
  | set => " | ".intercalate (set.map (·.2))

end AccessFlags

namespace MethodFlag

def static : UInt16 := 0x0008
def native : UInt16 := 0x0100
def abstract : UInt16 := 0x0400

end MethodFlag

end JvmAssembly
