import JvmAssembly.Constant
import JvmAssembly.Handle
import JvmAssembly.Kind

/-!
Symbolic instructions: constants are pool entries, jump targets are labels and locals are
variables. Sizes and offsets are decided by layout.
-/
namespace JvmAssembly

inductive Instruction where
  /-- Marks a place and takes no bytes. -/
  | label
  /-- An opcode without operands. -/
  | simple (opcode : Opcode)
  /-- A small number in the code itself. -/
  | immediate (opcode : Opcode) (operand : Int16)
  /-- One pool entry as operand; loads of constants get their short form at layout. -/
  | constant (opcode : Opcode) (entry : ConstantRef) (adjustment : Int16)
  /-- A call; interface calls also write how many slots the arguments take. -/
  | invoke (opcode : Opcode) (entry : ConstantRef) (adjustment : Int16) (argumentSlots : UInt8)
  | multiNewArray (entry : ConstantRef) (dimensions : UInt8)
  | load (source : Local) (kind : LocalKind)
  /-- A discarded store is written as a pop. -/
  | store (target : Local) (kind : LocalKind) (discard : Bool)
  | increment (target : Local) (amount : Int16)
  | branch (opcode : Opcode) (target : Label)
  /-- A switch, as a table of consecutive keys or as a list of keys. -/
  | switch (default : Label) (cases : List (Int32 × Label)) (table : Bool)
  /-- Return from a subroutine to the address in a local. -/
  | ret (source : Local)
deriving DecidableEq, Repr

namespace Instruction

/-- The cases from `c` on, with only the first of neighbours that share a key. -/
def dropRepeats (c : Int32 × Label) : List (Int32 × Label) → List (Int32 × Label)
  | [] => [c]
  | d :: ds => if c.1 == d.1 then dropRepeats c ds else c :: dropRepeats d ds

/-- Cases sorted by key, of which the first given wins. -/
def sortCases (cases : List (Int32 × Label)) : List (Int32 × Label) :=
  match cases.mergeSort fun c d => decide (c.1 ≤ d.1) with
  | [] => []
  | c :: cs => dropRepeats c cs

/-- Sorted cases are written as a table unless a list of keys is shorter. -/
def prefersTable (cases : List (Int32 × Label)) : Bool :=
  match cases.head?, cases.getLast? with
  | some (low, _), some (high, _) =>
    decide (4 * (3 + (high.toInt - low.toInt + 1)) ≤ 4 * (2 + 2 * (cases.length : Int)))
  | _, _ => false

def switchOver (default : Label) (cases : List (Int32 × Label)) : Instruction :=
  let cases := sortCases cases
  .switch default cases (prefersTable cases)

/-- Net growth of the operand stack; a subroutine call counts its return address only. -/
def adjustment : Instruction → Int
  | .label => 0
  | .simple op => op.simpleAdjustment
  | .immediate op _ => if op == Opcode.newarray then 0 else 1
  | .constant _ _ adj => adj.toInt
  | .invoke _ _ adj _ => adj.toInt
  | .multiNewArray _ dimensions => 1 - (dimensions.toNat : Int)
  | .load _ kind => kind.width
  | .store _ kind _ => -(kind.width : Int)
  | .increment _ _ => 0
  | .branch op _ => op.branchAdjustment
  | .switch _ _ _ => -1
  | .ret _ => 0

/-- Whether control may go on to the next instruction; a subroutine comes back there. -/
def fallsThrough : Instruction → Bool
  | .simple op => !(op.isReturn || op == Opcode.athrow)
  | .branch op _ => !(op == Opcode.goto || op == Opcode.goto_w)
  | .switch _ _ _ => false
  | .ret _ => false
  | _ => true

/-- Labels the instruction may jump to, the default of a switch last. -/
def targets : Instruction → List Label
  | .branch _ target => [target]
  | .switch default cases _ => cases.map (·.2) ++ [default]
  | _ => []

def isSubroutineCall : Instruction → Bool
  | .branch op _ => op.isSubroutineCall
  | _ => false

def uses : Instruction → Option Local
  | .load source _ => some source
  | .increment target _ => some target
  | .ret source => some source
  | _ => none

def defines : Instruction → Option Local
  | .store target _ _ => some target
  | .increment target _ => some target
  | _ => none

def isLabel : Instruction → Bool
  | .label => true
  | _ => false

end Instruction

end JvmAssembly
