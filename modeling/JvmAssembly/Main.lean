import JvmAssembly.CommandLine

/-!
The program: arguments and files in, text and files out.
-/
namespace JvmAssembly

def usage : String :=
  "Re-assemble and inspect JVM class files\n\n" ++
  "Usage:\n" ++
  "  info INPUT\n" ++
  "  rewrite INPUT --output OUTPUT [--strip-line-numbers] [--strict]"

def loadInput (path : Path) : IO Storage := do
  let directory := Storage.empty.createDirectories path.parent
  try
    let bytes ← IO.FS.readBinFile ("/".intercalate path)
    match directory.put path bytes.data.toList with
    | .ok s => return s
    | .error _ => return directory
  catch _ => return directory

def storeOutput (path : Path) (s : Storage) : IO Unit := do
  match s.contents path with
  | .error _ => return ()
  | .ok bytes =>
    let parent := "/".intercalate path.parent
    if !parent.isEmpty then IO.FS.createDirAll parent
    IO.FS.writeBinFile ("/".intercalate path) ⟨bytes.toArray⟩

end JvmAssembly

open JvmAssembly in
def main (args : List String) : IO UInt32 := do
  match Command.parse args with
  | none =>
    IO.eprintln usage
    return Command.misuse
  | some c =>
    let (output, s) := c.run (← loadInput c.input)
    output.lines.forM fun line => IO.println line
    if let some path := c.output? then storeOutput path s
    if let some fault := output.fault then IO.eprintln ("Error: " ++ fault.title)
    return output.exitCode
