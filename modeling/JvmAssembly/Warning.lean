import JvmAssembly.Disassembly.Listing
import JvmAssembly.Text.Hex

/-!
Things worth telling that do not stop the work.
-/
namespace JvmAssembly

inductive Warning where
  /-- An instruction was left out. -/
  | undecodable (report : Report)
  /-- A jump goes into the middle of an instruction or past the code. -/
  | strayTarget (address : Nat)
  /-- A method could not be assembled again; its name and descriptor may be unreadable. -/
  | keptBody (name descriptor : Option String) (report : Report)
  /-- A method has a body that nothing can run. -/
  | uselessBody (name : String)
deriving DecidableEq

def Warning.message : Warning → String
  | .undecodable r =>
    "Cannot disassemble opcode " ++ Hex.literal 2 r.opcode.toNat ++ " (" ++
      (r.opcode.mnemonic).getD "unknown" ++ ") at " ++ toString r.address
  | .strayTarget address =>
    "Jump target " ++ toString address ++ " is not the start of an instruction"
  | .keptBody name descriptor r =>
    "Keeping the original body of " ++ name.getD "?" ++ descriptor.getD "?" ++ ": opcode " ++
      Hex.literal 2 r.opcode.toNat ++ " at " ++ toString r.address ++ " can't be disassembled"
  | .uselessBody name => "Abstract or native method " ++ name ++ " has a body"

end JvmAssembly
