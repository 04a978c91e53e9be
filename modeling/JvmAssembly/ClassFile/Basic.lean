import JvmAssembly.AccessFlags
import JvmAssembly.ClassFile.Attribute

/-!
Class files: their parts, reading and writing. Everything refers to the pool by index.
-/
namespace JvmAssembly

structure Version where
  major : UInt16
  minor : UInt16
deriving DecidableEq, Repr

namespace Version

def java8 : Version := ⟨52, 0⟩

def read : Reader Version := do
  let minor ← Scan.u16
  let major ← Scan.u16
  return ⟨major, minor⟩

def write (v : Version) : Bytes := be16 v.minor ++ be16 v.major

end Version

def AccessFlags.read {owner : FlagOwner} : Reader (AccessFlags owner) := do
  return .ofBits (← Scan.u16)

structure MemberInfo (owner : FlagOwner) where
  flags : AccessFlags owner
  nameIndex : UInt16
  descriptorIndex : UInt16
  attributes : List Attribute
deriving DecidableEq, Repr

abbrev FieldInfo := MemberInfo .field

abbrev MethodInfo := MemberInfo .method

namespace MemberInfo

variable {owner : FlagOwner}

def read : Reader (MemberInfo owner) := do
  let flags ← AccessFlags.read
  let nameIndex ← Scan.u16
  let descriptorIndex ← Scan.u16
  let attributes ← Reader.counted Attribute.read
  return ⟨flags, nameIndex, descriptorIndex, attributes⟩

def write (m : MemberInfo owner) : Except Fault Bytes := do
  let attributes ← writeCounted (fun a => .ok a.write) m.attributes
  return be16 m.flags.bits ++ be16 m.nameIndex ++ be16 m.descriptorIndex ++ attributes

def code (m : MethodInfo) (pool : Pool) : Except Fault (Option CodeAttribute) :=
  Attribute.findCode m.attributes pool

end MemberInfo

structure ClassFile where
  version : Version
  pool : Pool
  flags : AccessFlags .cls
  thisClass : UInt16
  superClass : UInt16
  interfaces : List UInt16
  fields : List FieldInfo
  methods : List MethodInfo
  attributes : List Attribute

namespace ClassFile

def magic : UInt32 := 0xCAFEBABE

def read : Reader ClassFile := do
  let word ← Scan.u32
  if word != magic then
    Reader.fail (.malformed (.badMagic word))
  else
    let version ← Version.read
    let pool ← Pool.read
    let flags ← AccessFlags.read
    let thisClass ← Scan.u16
    let superClass ← Scan.u16
    let interfaces ← Reader.counted (Reader.ofScan Scan.u16)
    let fields ← Reader.counted MemberInfo.read
    let methods ← Reader.counted MemberInfo.read
    let attributes ← Reader.counted Attribute.read
    return ⟨version, pool, flags, thisClass, superClass, interfaces, fields, methods, attributes⟩

/-- A class file is the whole input. -/
def parse (bytes : Bytes) : Except Fault ClassFile :=
  match Reader.run read bytes with
  | .error fault => .error fault
  | .ok (file, ⟨_, []⟩) => .ok file
  | .ok (_, ⟨_, rest⟩) => .error (.malformed (.trailingBytes rest.length))

def write (f : ClassFile) : Except Fault Bytes := do
  let pool ← f.pool.write
  let interfaces ← writeCounted (fun i => .ok (be16 i)) f.interfaces
  let fields ← writeCounted MemberInfo.write f.fields
  let methods ← writeCounted MemberInfo.write f.methods
  let attributes ← writeCounted (fun a => .ok a.write) f.attributes
  return be32 magic ++ f.version.write ++ pool ++ be16 f.flags.bits ++ be16 f.thisClass ++
    be16 f.superClass ++ interfaces ++ fields ++ methods ++ attributes

def className (f : ClassFile) : Except Fault String := f.pool.classNameAt f.thisClass

end ClassFile

end JvmAssembly
