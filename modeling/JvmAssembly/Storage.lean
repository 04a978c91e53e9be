import JvmAssembly.ClassFile.Basic

/-!
Files in directories, as far as reading and writing class files needs them.
-/
namespace JvmAssembly

/-- The parts of a path, outermost directory first. -/
abbrev Path := List String

namespace Path

def ofString (s : String) : Path := s.splitOn "/"

def parent (p : Path) : Path := p.dropLast

end Path

structure Storage where
  /-- Directories besides the root. -/
  directories : List Path
  files : List (Path × Bytes)

namespace Storage

def empty : Storage := ⟨[], []⟩

def hasDirectory (s : Storage) (p : Path) : Bool := p.isEmpty || s.directories.contains p

def createDirectories (s : Storage) (p : Path) : Storage :=
  let missing := ((List.range (p.length + 1)).map p.take).filter fun d => !s.hasDirectory d
  { s with directories := missing ++ s.directories }

def contents (s : Storage) (p : Path) : Except Fault Bytes :=
  match s.files.find? fun f => f.1 == p with
  | some (_, bytes) => .ok bytes
  | none => .error .fileNotFound

/-- A file needs the directory it lies in. -/
def put (s : Storage) (p : Path) (bytes : Bytes) : Except Fault Storage :=
  if s.hasDirectory p.parent then
    .ok { s with files := (p, bytes) :: s.files.filter fun f => f.1 != p }
  else .error .fileNotFound

end Storage

namespace ClassFile

def load (s : Storage) (p : Path) : Except Fault ClassFile := do
  parse (← s.contents p)

/-- What a file holds of a class whose pool has an entry that cannot be written. -/
def written (f : ClassFile) : Bytes := be32 magic ++ f.version.write ++ f.pool.written

/-- Writes a class to a file, whose directory may be made first. A fault on the way leaves what
was written before it. -/
def save (f : ClassFile) (s : Storage) (p : Path) (createParents : Bool) :
    Except Fault Unit × Storage :=
  let s := if createParents then s.createDirectories p.parent else s
  let (result, bytes) := match f.write with
    | .ok bytes => (.ok (), bytes)
    | .error fault => (.error fault, f.written)
  match s.put p bytes with
  | .error fault => (.error fault, s)
  | .ok s => (result, s)

end ClassFile

end JvmAssembly
