/-!
Names as class files spell them. A binary name is a path of segments between slashes, an
unqualified name is a single segment. A value of either type is a checked name.
-/
namespace JvmAssembly

inductive NameProblem where
  | emptySegment
  | contains (c : Char)
deriving DecidableEq, Repr

inductive NameKind where
  | binary
  | unqualified
deriving DecidableEq, Repr

/-- A text that is no name, and the first reason from the left. -/
structure NameFault where
  kind : NameKind
  text : String
  problem : NameProblem
deriving DecidableEq, Repr

def NameKind.title : NameKind → String
  | .binary => "Binary name"
  | .unqualified => "Unqualified name"

def NameFault.message (f : NameFault) : String :=
  let subject := f.kind.title ++ " '" ++ f.text ++ "'"
  match f.problem with
  | .emptySegment => subject ++ " has an empty segment"
  | .contains c => subject ++ " may not contain '" ++ String.singleton c ++ "'"

namespace Name

/-- Characters that descriptors and paths give a meaning of their own. -/
def isReserved (c : Char) : Bool :=
  c == '.' || c == ';' || c == '['

/-- Walks a path of segments; `fresh` says that the current segment has no character yet. -/
def binaryProblem (fresh : Bool) : List Char → Option NameProblem
  | [] => if fresh then some .emptySegment else none
  | c :: cs =>
    if c == '/' then
      if fresh then some .emptySegment else binaryProblem true cs
    else if isReserved c then some (.contains c)
    else binaryProblem false cs

/-- A single segment: not empty, and without reserved characters and slashes. -/
def segmentProblem (cs : List Char) : Option NameProblem :=
  if cs.isEmpty then some .emptySegment
  else (cs.find? fun c => isReserved c || c == '/').map .contains

end Name

structure BinaryName where
  text : String
  valid : Name.binaryProblem true text.toList = none
deriving DecidableEq

structure UnqualifiedName where
  text : String
  valid : Name.segmentProblem text.toList = none
deriving DecidableEq

instance : Hashable BinaryName := ⟨fun n => hash n.text⟩

namespace BinaryName

def ofString (s : String) : Except NameFault BinaryName :=
  match h : Name.binaryProblem true s.toList with
  | none => .ok ⟨s, h⟩
  | some p => .error ⟨.binary, s, p⟩

def object : BinaryName := ⟨"java/lang/Object", by decide⟩
def float : BinaryName := ⟨"java/lang/Float", by decide⟩
def double : BinaryName := ⟨"java/lang/Double", by decide⟩

end BinaryName

namespace UnqualifiedName

def ofString (s : String) : Except NameFault UnqualifiedName :=
  match h : Name.segmentProblem s.toList with
  | none => .ok ⟨s, h⟩
  | some p => .error ⟨.unqualified, s, p⟩

theorem binaryProblem_of_segment {cs : List Char} (h : Name.segmentProblem cs = none) :
    Name.binaryProblem true cs = none := by
  cases cs with
  | nil => simp [Name.segmentProblem] at h
  | cons c cs =>
    simp only [Name.segmentProblem, List.isEmpty_cons, Bool.false_eq_true, if_false,
      Option.map_eq_none_iff, List.find?_eq_none, Bool.or_eq_true, not_or, Bool.not_eq_true] at h
    have hc := h c (by simp)
    have tail : ∀ ds : List Char, (∀ d ∈ ds, Name.isReserved d = false ∧ (d == '/') = false) →
        Name.binaryProblem false ds = none := by
      intro ds
      induction ds with
      | nil => intro; rfl
      | cons d ds ih =>
        intro hd
        have h0 := hd d (by simp)
        simp only [Name.binaryProblem, h0.1, h0.2, Bool.false_eq_true, if_false]
        exact ih fun e he => hd e (by simp [he])
    simp only [Name.binaryProblem, hc.1, hc.2, Bool.false_eq_true, if_false]
    exact tail cs fun d hd => h d (by simp [hd])

def toBinary (n : UnqualifiedName) : BinaryName :=
  ⟨n.text, binaryProblem_of_segment n.valid⟩

end UnqualifiedName

end JvmAssembly
