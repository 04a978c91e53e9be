import JvmAssembly.Reassembly
import JvmAssembly.Storage

/-!
The commands: a summary of a class file, and a class file assembled again.
-/
namespace JvmAssembly

/-- Lines printed, and the fault that ended the work, if one did. -/
structure Output where
  lines : List String
  fault : Option Fault

namespace Summary

def superclass (f : ClassFile) : Except Fault String :=
  if f.superClass = 0 then .ok "none" else f.pool.classNameAt f.superClass

def header (f : ClassFile) : Except Fault (List String) := do
  let superclass ← superclass f
  let name ← f.className
  return [
    "class " ++ name ++ " extends " ++ superclass ++ " (version " ++
      toString f.version.major.toNat ++ "." ++ toString f.version.minor.toNat ++ ", " ++
      toString f.pool.size ++ " constants)",
    "  flags " ++ f.flags.names ++ ", " ++ toString f.fields.length ++ " fields, " ++
      toString f.methods.length ++ " methods"]

def method (pool : Pool) (m : MethodInfo) : Except Fault String := do
  let name ← pool.textAt m.nameIndex
  let descriptor ← pool.textAt m.descriptorIndex
  let heading := "  " ++ name ++ descriptor ++ " [" ++ m.flags.names ++ "]: "
  match ← m.code pool with
  | some c =>
    return heading ++ toString c.code.length ++ " bytes, max stack " ++
      toString c.maxStack.toNat ++ ", max locals " ++ toString c.maxLocals.toNat ++ ", " ++
      toString c.handlers.length ++ " handlers"
  | none => return heading ++ "no code"

/-- A line for each method, up to the first that cannot be read. -/
def methods (pool : Pool) (done : Array String) : List MethodInfo → Output
  | [] => ⟨done.toList, none⟩
  | m :: ms =>
    match method pool m with
    | .ok line => methods pool (done.push line) ms
    | .error fault => ⟨done.toList, some fault⟩

end Summary

def ClassFile.summary (f : ClassFile) : Output :=
  match Summary.header f with
  | .error fault => ⟨[], some fault⟩
  | .ok lines => Summary.methods f.pool lines.toArray f.methods

inductive Command where
  | info (input : Path)
  | reassemble (settings : Reassembly.Settings) (input output : Path)

namespace Command

structure Options where
  settings : Reassembly.Settings
  input : Option String
  output : Option String

/-- Reads the arguments of a command with an output file; each may be given once. -/
def readOptions (o : Options) : List String → Option Options
  | [] => some o
  | "--strict" :: rest =>
    if o.settings.strict then none
    else readOptions { o with settings := { o.settings with strict := true } } rest
  | "--strip-line-numbers" :: rest =>
    if o.settings.keepLines then
      readOptions { o with settings := { o.settings with keepLines := false } } rest
    else none
  | "-o" :: path :: rest | "--output" :: path :: rest =>
    if o.output.isSome then none else readOptions { o with output := some path } rest
  | word :: rest =>
    if o.input.isSome || word.startsWith "-" then none
    else readOptions { o with input := some word } rest

def parse : List String → Option Command
  | ["info", input] => if input.startsWith "-" then none else some (.info (.ofString input))
  | "rewrite" :: rest =>
    match readOptions ⟨.standard, none, none⟩ rest with
    | some ⟨settings, some input, some output⟩ =>
      some (.reassemble settings (.ofString input) (.ofString output))
    | _ => none
  | _ => none

def input : Command → Path
  | .info input => input
  | .reassemble _ input _ => input

def output? : Command → Option Path
  | .info _ => none
  | .reassemble _ _ output => some output

def run (c : Command) (s : Storage) : Output × Storage :=
  match ClassFile.load s c.input with
  | .error fault => (⟨[], some fault⟩, s)
  | .ok f =>
    match c with
    | .info _ => (f.summary, s)
    | .reassemble settings _ output =>
      match (f.reassemble settings).1 with
      | .error fault => (⟨[], some fault⟩, s)
      | .ok f =>
        match f.save s output true with
        | (.error fault, s) => (⟨[], some fault⟩, s)
        | (.ok (), s) => (⟨[], none⟩, s)

end Command

def Output.exitCode (o : Output) : UInt32 :=
  match o.fault with
  | none => 0
  | some fault => if fault.isFatal then 101 else 1

namespace Command

def misuse : UInt32 := 2

/-- Carries out the command that the arguments spell, and answers its exit code. -/
def runArguments (arguments : List String) (s : Storage) : UInt32 × Output × Storage :=
  match parse arguments with
  | none => (misuse, ⟨[], none⟩, s)
  | some c =>
    match c.run s with
    | (o, s) => (o.exitCode, o, s)

end Command

end JvmAssembly
