import JvmAssembly.Fault

/-!
Operations of an assembler. Each appends one instruction to a method body, or a short fixed
sequence, or declares something. A list of them is a method in a form that any receiver of
operations can carry out, so handles of labels and locals are left open.
-/
namespace JvmAssembly

inductive Value where
  | int (value : Int32)
  | long (value : Int64)
  | float (bits : UInt32)
  | double (bits : UInt64)
  | string (text : String)
  | cls (type : RefType)
deriving DecidableEq

inductive Op (lab loc : Type) where
  | createLocal (name : Option String) (type : FieldType)
  | createLocalAt (name : Option String) (type : FieldType) (slot : UInt16)
  | createLabel
  | placeLabel (label : lab)
  | exceptionHandler (start stop entry : lab) (catchType : Option RefType)
  | lineNumber (line : UInt16)
  | loadNull
  | loadConstant (value : Value)
  | loadLocal (source : loc)
  | storeLocal (target : loc)
  | increment (target : loc) (amount : Int16)
  | arrayLoad (element : FieldType)
  | arrayStore (element : FieldType)
  /-- A member without an owner belongs to the class of the method. -/
  | getField (owner : Option BinaryName) (name : String) (type : FieldType) (isStatic : Bool)
  | putField (owner : Option BinaryName) (name : String) (type : FieldType) (isStatic : Bool)
  | invoke (kind : InvokeKind) (owner : Option RefType) (name : String)
      (descriptor : MethodDescriptor) (isInterface : Bool)
  | newObject (name : BinaryName)
  | newArray (element : FieldType)
  | newMultiArray (type : RefType) (dimensions : UInt8)
  | arrayLength
  | throw
  | checkCast (type : RefType)
  | instanceOf (type : RefType)
  | math (opcode : Opcode)
  | convert (source target : FieldType) (mode : ConvertMode)
  | stack (op : StackOp)
  | branch (target : lab)
  | ifNull (target : lab) (isNull : Bool)
  | ifZero (target : lab) (comparison : Comparison)
  | ifCompare (target : lab) (comparison : Comparison) (type : FieldType)
  | switch (default : lab) (cases : List (Int32 × lab))
  | jsr (target : lab)
  | ret (source : loc)
  | returnValue (type : Option FieldType)
  | monitorEnter
  | monitorExit
  | nop
deriving DecidableEq

namespace Op

variable {lab loc lab' loc' : Type}

def invokeConstructor (name : BinaryName) (descriptor : MethodDescriptor) : Op lab loc :=
  .invoke .special (some (.object name)) "<init>" descriptor false

def map (f : lab → lab') (g : loc → loc') : Op lab loc → Op lab' loc'
  | .createLocal name type => .createLocal name type
  | .createLocalAt name type slot => .createLocalAt name type slot
  | .createLabel => .createLabel
  | .placeLabel label => .placeLabel (f label)
  | .exceptionHandler start stop entry catchType =>
    .exceptionHandler (f start) (f stop) (f entry) catchType
  | .lineNumber line => .lineNumber line
  | .loadNull => .loadNull
  | .loadConstant value => .loadConstant value
  | .loadLocal source => .loadLocal (g source)
  | .storeLocal target => .storeLocal (g target)
  | .increment target amount => .increment (g target) amount
  | .arrayLoad element => .arrayLoad element
  | .arrayStore element => .arrayStore element
  | .getField owner name type isStatic => .getField owner name type isStatic
  | .putField owner name type isStatic => .putField owner name type isStatic
  | .invoke kind owner name descriptor isInterface =>
    .invoke kind owner name descriptor isInterface
  | .newObject name => .newObject name
  | .newArray element => .newArray element
  | .newMultiArray type dimensions => .newMultiArray type dimensions
  | .arrayLength => .arrayLength
  | .throw => .throw
  | .checkCast type => .checkCast type
  | .instanceOf type => .instanceOf type
  | .math opcode => .math opcode
  | .convert source target mode => .convert source target mode
  | .stack op => .stack op
  | .branch target => .branch (f target)
  | .ifNull target isNull => .ifNull (f target) isNull
  | .ifZero target comparison => .ifZero (f target) comparison
  | .ifCompare target comparison type => .ifCompare (f target) comparison type
  | .switch default cases => .switch (f default) (cases.map fun c => (c.1, f c.2))
  | .jsr target => .jsr (f target)
  | .ret source => .ret (g source)
  | .returnValue type => .returnValue type
  | .monitorEnter => .monitorEnter
  | .monitorExit => .monitorExit
  | .nop => .nop

end Op

end JvmAssembly
