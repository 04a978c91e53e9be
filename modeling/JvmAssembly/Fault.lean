import JvmAssembly.Constant
import JvmAssembly.Descriptor
import JvmAssembly.Handle
import JvmAssembly.Kind
import JvmAssembly.Text.Hex
import JvmAssembly.Text.ModifiedUtf8
import JvmAssembly.Text.Quoted

/-!
Everything that can go wrong, as causes, and the words for each cause in one place.
-/
namespace JvmAssembly

inductive Expected where
  | utf8 | classInfo | nameAndType | member | loadable
deriving DecidableEq, Repr

def Expected.name : Expected → String
  | .utf8 => "Utf8"
  | .classInfo => "Class"
  | .nameAndType => "NameAndType"
  | .member => "FieldRef or MethodRef"
  | .loadable => "loadable constant"

/-- Tables whose length has to fit sixteen bits. -/
inductive Table where
  | interfaces | fields | methods | exceptions | lines | locals
deriving DecidableEq, Repr

def Table.name : Table → String
  | .interfaces => "interfaces"
  | .fields => "fields"
  | .methods => "methods"
  | .exceptions => "exception_table"
  | .lines => "LineNumberTable"
  | .locals => "LocalVariableTable"

inductive FormatFault where
  | badMagic (word : UInt32)
  | poolEnd (offset count : Nat)
  | unknownTag (tag : UInt8)
  | unknownHandleKind (kind : UInt8)
  | badText (fault : ModifiedUtf8.Fault)
  | trailingBytes (count : Nat)
  | trailingInAttribute (name : String)
  | badArrayType (code : UInt8)
  | unexpectedOpcode (opcode : Opcode)
deriving DecidableEq, Repr

def FormatFault.message : FormatFault → String
  | .badMagic word => "Bad magic header " ++ Hex.literal 8 word.toNat
  | .poolEnd offset count =>
    "Constant pool ends at " ++ toString offset ++ " but has count " ++ toString count
  | .unknownTag tag => "Unsupported constant pool tag " ++ toString tag.toNat
  | .unknownHandleKind kind => "Unknown method handle kind " ++ toString kind.toNat
  | .badText fault => fault.message
  | .trailingBytes count => toString count ++ " trailing bytes after class file"
  | .trailingInAttribute name => "Trailing bytes in '" ++ name ++ "' attribute"
  | .badArrayType code => "Invalid newarray type " ++ toString code.toNat
  | .unexpectedOpcode opcode => "Unexpected branch opcode " ++ toString opcode.toNat

inductive OperandFault where
  | noReceiver
  | incrementOf (type : FieldType)
  | dimensions (count : UInt8) (type : RefType)
  | cannotWiden (opcode : Opcode)
  | parameterType (slot : UInt16) (found expected : FieldType)
  | classOperand (opcode : Opcode) (type : RefType)
deriving DecidableEq

def Element.outline : Element → String
  | .base b => "Base(" ++ b.name ++ ")"
  | .object n => "Ref(Object(BinaryName(" ++ quoted n.text ++ ")))"

/-- The structure of a type, spelled out layer by layer. -/
def RefType.outline : RefType → String
  | .object n => "Object(BinaryName(" ++ quoted n.text ++ "))"
  | .array outer e =>
    String.join (List.replicate outer "Array(Ref(") ++ "Array(" ++ e.outline ++ ")" ++
      String.join (List.replicate outer "))")

def FieldType.outline : FieldType → String
  | .base b => "Base(" ++ b.name ++ ")"
  | .ref r => "Ref(" ++ r.outline ++ ")"

def OperandFault.message : OperandFault → String
  | .noReceiver => "no `this` in a static method"
  | .incrementOf type => "iinc on " ++ type.render
  | .dimensions count type => toString count.toNat ++ " dimensions of " ++ type.render
  | .cannotWiden opcode => "cannot widen opcode " ++ Hex.literal 2 opcode.toNat
  | .parameterType slot found expected =>
    "parameter at slot " ++ toString slot.toNat ++ " has type " ++ found.outline ++ " but " ++
      expected.outline ++ " was expected"
  | .classOperand opcode type => (opcode.mnemonic).getD "?" ++ " of " ++ type.outline

inductive Fault where
  | endOfInput
  | fileNotFound
  | tooManyElements (count : Nat)
  | textTooLong (size : Nat)
  | poolUnnumbered
  | poolOverflow (constant : Constant) (offset : Nat)
  | indexUnassigned (ref : ConstantRef)
  | notInterned (constant : Constant)
  | missingConstant (index : UInt16)
  /-- A reference past the end of the pool. -/
  | noSuchEntry (ref : ConstantRef)
  | unexpectedConstant (constant : Constant) (expected : Expected)
  | maxStackOverflow (size : Nat)
  | maxLocalsOverflow (size : Nat)
  | codeOverflow (size : Nat)
  | tableOverflow (table : Table) (length : Nat)
  | unplacedLabel (label : Label)
  | duplicateLabel (label : Label)
  | foreignLabel (label : Label)
  | referencedLabel (label : Label)
  | foreignLocal (which : Local)
  | unassignedLocal (which : Local)
  | replacingLabel (node : NodeId)
  | unlinkedNode (node : NodeId)
  | inconsistentDepth (position : Nat) (expected found : Int)
  | stackUnderflow (position : Nat)
  /-- Layout passes ran out before branch offsets stopped moving. -/
  | unsettledLayout
  | unsupportedInstruction (address : Nat) (opcode : Opcode)
  | parameterMismatch (expected found : Nat)
  /-- Parameters that need more slots than there are. -/
  | slotOverflow
  | unknownComparison (symbol : String)
  | referenceComparison (comparison : Comparison)
  | invalidConversion (source target : FieldType)
  | invalidMathOpcode (opcode : Opcode)
  | invalidOperand (fault : OperandFault)
  | badDescriptor (fault : DescriptorFault)
  | badName (fault : NameFault)
  | malformed (fault : FormatFault)
deriving DecidableEq

def Fault.title : Fault → String
  | .endOfInput | .fileNotFound | .tooManyElements _ | .textTooLong _ | .poolUnnumbered => "IoError"
  | .poolOverflow _ _ => "ConstantPoolOverflow"
  | .indexUnassigned _ => "ConstantIndexUnassigned"
  | .notInterned _ => "ConstantNotInterned"
  | .missingConstant _ => "MissingConstant"
  | .noSuchEntry _ | .slotOverflow => "panic"
  | .unexpectedConstant _ _ => "UnexpectedConstant"
  | .maxStackOverflow _ => "MethodCodeMaxStackOverflow"
  | .maxLocalsOverflow _ => "MethodCodeMaxLocalsOverflow"
  | .codeOverflow _ => "MethodCodeOverflow"
  | .tableOverflow _ _ => "TableOverflow"
  | .unplacedLabel _ => "UnplacedLabel"
  | .duplicateLabel _ => "DuplicateLabel"
  | .foreignLabel _ => "ForeignLabel"
  | .referencedLabel _ => "RemovingReferencedLabel"
  | .foreignLocal _ => "ForeignLocalVariable"
  | .unassignedLocal _ => "UnassignedLocalVariable"
  | .replacingLabel _ => "ReplacingLabel"
  | .unlinkedNode _ => "UnlinkedInstruction"
  | .inconsistentDepth _ _ _ => "InconsistentStackDepth"
  | .stackUnderflow _ => "StackUnderflow"
  | .unsettledLayout => "UnsettledLayout"
  | .unsupportedInstruction _ _ => "UnsupportedInstruction"
  | .parameterMismatch _ _ => "ParameterMismatch"
  | .unknownComparison _ | .referenceComparison _ => "InvalidComparison"
  | .invalidConversion _ _ => "InvalidConversion"
  | .invalidMathOpcode _ => "InvalidMathOpcode"
  | .invalidOperand _ => "InvalidOperandType"
  | .badDescriptor _ => "BadDescriptor"
  | .badName _ => "BadName"
  | .malformed _ => "MalformedClassFile"

/-- Faults that end the program wherever they arise. -/
def Fault.isFatal : Fault → Bool
  | .noSuchEntry _ | .slotOverflow => true
  | _ => false

/-- The words of a fault, where it has more to say than its kind and its values. -/
def Fault.message? : Fault → Option String
  | .endOfInput => some "failed to fill whole buffer"
  | .tooManyElements count =>
    some (toString count ++ " elements do not fit a u16 length prefix")
  | .textTooLong size => some ("UTF-8 constant of " ++ toString size ++ " bytes is too long")
  | .poolUnnumbered => some "constant pool indices have not been assigned"
  | .unknownComparison symbol => some symbol
  | .referenceComparison comparison => some (comparison.symbol ++ " on references")
  | .invalidOperand fault => some fault.message
  | .badDescriptor fault => some fault.message
  | .badName fault => some fault.message
  | .malformed fault => some fault.message
  | _ => none

inductive Detail where
  | number (n : Int)
  | text (s : String)
  | entry (c : Constant)
  | label (l : Label)
  | var (v : Local)
  | node (n : NodeId)
deriving DecidableEq

def Fault.inputKind? : Fault → Option String
  | .endOfInput => some "UnexpectedEof"
  | .fileNotFound => some "NotFound"
  | .tooManyElements _ | .textTooLong _ => some "InvalidData"
  | .poolUnnumbered => some "InvalidInput"
  | _ => none

/-- The values of a fault by name, its words included. -/
def Fault.details (f : Fault) : List (String × Detail) :=
  match f with
  | .poolOverflow c offset => [("constant", .entry c), ("offset", .number offset)]
  | .indexUnassigned ref => [("ref", .number ref)]
  | .notInterned c => [("constant", .entry c)]
  | .missingConstant index => [("index", .number index.toNat)]
  | .unexpectedConstant c expected => [("constant", .entry c), ("expected", .text expected.name)]
  | .maxStackOverflow n | .maxLocalsOverflow n | .codeOverflow n => [("size", .number n)]
  | .tableOverflow table n => [("table", .text table.name), ("length", .number n)]
  | .unplacedLabel l | .duplicateLabel l | .foreignLabel l | .referencedLabel l =>
    [("label", .label l)]
  | .foreignLocal v | .unassignedLocal v => [("local", .var v)]
  | .replacingLabel n | .unlinkedNode n => [("insn", .node n)]
  | .inconsistentDepth position expected found =>
    [("position", .number position), ("expected", .number expected), ("found", .number found)]
  | .stackUnderflow position => [("position", .number position)]
  | .unsupportedInstruction address opcode =>
    [("address", .number address), ("opcode", .number opcode.toNat)]
  | .parameterMismatch expected found =>
    [("expected", .number expected), ("found", .number found)]
  | .invalidConversion source target =>
    [("from", .text source.render), ("to", .text target.render)]
  | .invalidMathOpcode opcode => [("opcode", .number opcode.toNat)]
  | _ =>
    (f.inputKind?.map fun kind => ("kind", Detail.text kind)).toList ++
      (f.message?.map fun message => ("message", Detail.text message)).toList

def checkTable (table : Table) (length : Nat) : Except Fault Unit :=
  if length > 65535 then .error (.tableOverflow table length) else .ok ()

/-- The slot behind a value. Slots are words of sixteen bits, and there is none past the last. -/
def slotAfter (slot : UInt16) (type : FieldType) : Except Fault UInt16 :=
  if slot.toNat + type.width ≤ 65535 then .ok (slot + UInt16.ofNat type.width)
  else .error .slotOverflow

/-! Reading with faults as failures. -/

def BinaryName.ofText (text : String) : Except Fault BinaryName :=
  (BinaryName.ofString text).mapError .badName

def UnqualifiedName.ofText (text : String) : Except Fault UnqualifiedName :=
  (UnqualifiedName.ofString text).mapError .badName

def FieldType.ofText (text : String) : Except Fault FieldType :=
  (FieldType.parse text).mapError .badDescriptor

def MethodDescriptor.ofText (text : String) : Except Fault MethodDescriptor :=
  (MethodDescriptor.parse text).mapError .badDescriptor

def Comparison.ofText (text : String) : Except Fault Comparison :=
  match Comparison.ofSymbol? text with
  | some c => .ok c
  | none => .error (.unknownComparison text)

def Comparison.referenceOpcode (c : Comparison) : Except Fault Opcode :=
  match c.referenceOpcode? with
  | some op => .ok op
  | none => .error (.referenceComparison c)

/-- The class that a name in the pool stands for: an array if it starts with a bracket. -/
def RefType.ofClassName (text : String) : Except Fault RefType :=
  if text.toList.head? = some '[' then
    (Descriptor.whole RefType.readArray text).mapError .badDescriptor
  else .object <$> BinaryName.ofText text

end JvmAssembly
