import JvmAssembly.Name

/-!
Types and their descriptors: `I`, `[Ljava/lang/String;`, `(IJ)V`. A type that is not a base type
is a class or an array, and an array is a number of brackets before an element.
-/
namespace JvmAssembly

inductive BaseType where
  | boolean | byte | char | short | int | long | float | double
deriving DecidableEq, Repr, Hashable

namespace BaseType

def all : List BaseType := [.boolean, .byte, .char, .short, .int, .long, .float, .double]

def toChar : BaseType → Char
  | .boolean => 'Z'
  | .byte => 'B'
  | .char => 'C'
  | .short => 'S'
  | .int => 'I'
  | .long => 'J'
  | .float => 'F'
  | .double => 'D'

def ofChar? (c : Char) : Option BaseType :=
  all.find? fun b => b.toChar == c

def name : BaseType → String
  | .boolean => "Boolean"
  | .byte => "Byte"
  | .char => "Char"
  | .short => "Short"
  | .int => "Int"
  | .long => "Long"
  | .float => "Float"
  | .double => "Double"

def width : BaseType → Nat
  | .long | .double => 2
  | _ => 1

end BaseType

/-- What an array holds below all of its brackets. -/
inductive Element where
  | base (b : BaseType)
  | object (name : BinaryName)
deriving DecidableEq, Hashable

/-- A class, or an array of `outer + 1` dimensions. -/
inductive RefType where
  | object (name : BinaryName)
  | array (outer : Nat) (element : Element)
deriving DecidableEq, Hashable

inductive FieldType where
  | base (b : BaseType)
  | ref (r : RefType)
deriving DecidableEq, Hashable

/-- Parameters in order; no return type is `void`. -/
structure MethodDescriptor where
  parameters : List FieldType
  returnType : Option FieldType
deriving DecidableEq

inductive DescriptorProblem where
  | missingFieldType
  | unexpected (c : Char)
  | unterminatedName
  | badName (fault : NameFault)
  | missingParenthesis
  | trailing
deriving DecidableEq, Repr

def DescriptorProblem.message : DescriptorProblem → String
  | .missingFieldType => "expected a field type"
  | .unexpected c => "unexpected '" ++ String.singleton c ++ "'"
  | .unterminatedName => "class name is missing its ';'"
  | .badName f => f.message
  | .missingParenthesis => "expected '('"
  | .trailing => "trailing characters"

inductive DescriptorFault where
  /-- Reading `text` stopped at a byte offset of its UTF-8 form. -/
  | malformed (text : String) (offset : Nat) (problem : DescriptorProblem)
  /-- A method takes more argument slots than a call can count. -/
  | tooManySlots (descriptor : String)
deriving DecidableEq, Repr

def DescriptorFault.message : DescriptorFault → String
  | .malformed text offset problem =>
    "'" ++ text ++ "' at " ++ toString offset ++ ": " ++ problem.message
  | .tooManySlots descriptor => descriptor

namespace Element

def chars : Element → List Char
  | .base b => [b.toChar]
  | .object n => 'L' :: (n.text.toList ++ [';'])

end Element

namespace RefType

def chars : RefType → List Char
  | .object n => (Element.object n).chars
  | .array outer e => List.replicate (outer + 1) '[' ++ e.chars

def render (r : RefType) : String := String.ofList r.chars

def dimensions : RefType → Nat
  | .object _ => 0
  | .array outer _ => outer + 1

def className : RefType → String
  | .object n => n.text
  | r => r.render

end RefType

namespace FieldType

def int : FieldType := .base .int
def long : FieldType := .base .long
def float : FieldType := .base .float
def double : FieldType := .base .double
def object (n : BinaryName) : FieldType := .ref (.object n)

def ofElement : Nat → Element → FieldType
  | 0, .base b => .base b
  | 0, .object n => .ref (.object n)
  | n + 1, e => .ref (.array n e)

def chars : FieldType → List Char
  | .base b => [b.toChar]
  | .ref r => r.chars

def render (t : FieldType) : String := String.ofList t.chars

def width : FieldType → Nat
  | .base b => b.width
  | .ref _ => 1

end FieldType

namespace MethodDescriptor

def chars (d : MethodDescriptor) : List Char :=
  '(' :: (d.parameters.flatMap FieldType.chars ++
    ')' :: (d.returnType.elim ['V'] FieldType.chars))

def render (d : MethodDescriptor) : String := String.ofList d.chars

/-- Slots taken by the arguments, and by the receiver if there is one. -/
def parameterSlots (d : MethodDescriptor) (hasReceiver : Bool) : Nat :=
  d.parameters.foldr (fun t n => t.width + n) 0 + if hasReceiver then 1 else 0

def returnWidth (d : MethodDescriptor) : Nat :=
  d.returnType.elim 0 FieldType.width

end MethodDescriptor

namespace Descriptor

abbrev Stop := DescriptorProblem × List Char

/-- Splits off leading brackets, on top of `n` already counted. -/
def brackets (n : Nat) : List Char → Nat × List Char
  | [] => (n, [])
  | c :: cs => if c == '[' then brackets (n + 1) cs else (n, c :: cs)

def readName (cs : List Char) : Except Stop (BinaryName × List Char) :=
  match cs.dropWhile (· != ';') with
  | [] => .error (.unterminatedName, cs)
  | _ :: rest =>
    match BinaryName.ofString (String.ofList (cs.takeWhile (· != ';'))) with
    | .ok n => .ok (n, rest)
    | .error f => .error (.badName f, cs)

def readElement : List Char → Except Stop (Element × List Char)
  | [] => .error (.missingFieldType, [])
  | c :: cs =>
    match BaseType.ofChar? c with
    | some b => .ok (.base b, cs)
    | none =>
      if c == 'L' then
        match readName cs with
        | .ok (n, rest) => .ok (.object n, rest)
        | .error stop => .error stop
      else .error (.unexpected c, c :: cs)

def readFieldType (cs : List Char) : Except Stop (FieldType × List Char) :=
  let (n, rest) := brackets 0 cs
  match readElement rest with
  | .ok (e, rest) => .ok (FieldType.ofElement n e, rest)
  | .error stop => .error stop

theorem brackets_length (n : Nat) (cs : List Char) : (brackets n cs).2.length ≤ cs.length := by
  induction cs generalizing n with
  | nil => simp [brackets]
  | cons c cs ih =>
    unfold brackets
    split
    · exact Nat.le_succ_of_le (ih (n + 1))
    · simp

theorem readName_length {cs rest : List Char} {n : BinaryName} (h : readName cs = .ok (n, rest)) :
    rest.length < cs.length := by
  unfold readName at h
  have hl := (List.dropWhile_sublist (l := cs) (· != ';')).length_le
  split at h
  · cases h
  · rename_i d rest' hs
    rw [hs, List.length_cons] at hl
    split at h
    · cases h
      omega
    · cases h

theorem readElement_length {cs rest : List Char} {e : Element}
    (h : readElement cs = .ok (e, rest)) : rest.length < cs.length := by
  unfold readElement at h
  split at h
  · cases h
  · rename_i c cs
    split at h
    · cases h
      simp
    · split at h
      · split at h
        · rename_i hn
          cases h
          have := readName_length hn
          simp only [List.length_cons]
          omega
        · cases h
      · cases h

theorem readFieldType_length {cs rest : List Char} {t : FieldType}
    (h : readFieldType cs = .ok (t, rest)) : rest.length < cs.length := by
  unfold readFieldType at h
  have hb := brackets_length 0 cs
  split at h
  rename_i n rest' hbr
  split at h
  · rename_i he
    cases h
    have := readElement_length he
    rw [hbr] at hb
    simp only at hb
    omega
  · cases h

/-- Parameters up to the closing parenthesis, after those already read. -/
def readParameters (done : Array FieldType) (cs : List Char) :
    Except Stop (List FieldType × List Char) :=
  match cs with
  | ')' :: rest => .ok (done.toList, rest)
  | cs =>
    match h : readFieldType cs with
    | .ok (t, rest) =>
      have := readFieldType_length h
      readParameters (done.push t) rest
    | .error stop => .error stop
termination_by cs.length

def readReturn : List Char → Except Stop (Option FieldType × List Char)
  | 'V' :: rest => .ok (none, rest)
  | cs =>
    match readFieldType cs with
    | .ok (t, rest) => .ok (some t, rest)
    | .error stop => .error stop

def readMethod : List Char → Except Stop (MethodDescriptor × List Char)
  | '(' :: cs =>
    match readParameters #[] cs with
    | .error stop => .error stop
    | .ok (parameters, rest) =>
      match readReturn rest with
      | .error stop => .error stop
      | .ok (returnType, rest) => .ok (⟨parameters, returnType⟩, rest)
  | cs => .error (.missingParenthesis, cs)

def utf8Size (cs : List Char) : Nat :=
  cs.foldl (fun n c => n + c.utf8Size) 0

/-- Runs a reader over a whole text and places its problem by byte offset. -/
def whole {α : Type} (read : List Char → Except Stop (α × List Char)) (text : String) :
    Except DescriptorFault α :=
  let placed (stop : Stop) : DescriptorFault :=
    .malformed text (text.utf8ByteSize - utf8Size stop.2) stop.1
  match read text.toList with
  | .ok (a, []) => .ok a
  | .ok (_, rest) => .error (placed (.trailing, rest))
  | .error stop => .error (placed stop)

end Descriptor

def FieldType.parse (text : String) : Except DescriptorFault FieldType :=
  Descriptor.whole Descriptor.readFieldType text

def MethodDescriptor.parse (text : String) : Except DescriptorFault MethodDescriptor :=
  Descriptor.whole Descriptor.readMethod text

def RefType.readArray (cs : List Char) : Except Descriptor.Stop (RefType × List Char) :=
  match Descriptor.brackets 0 cs with
  | (n, rest) =>
    match Descriptor.readElement rest with
    | .ok (e, rest) => .ok (.array (n - 1) e, rest)
    | .error stop => .error stop

end JvmAssembly
