import Mathlib
import JvmAssembly.Proofs.ClassFile.Format

/-!
Class files as bytes and back. A class file that can be written reads back with every part as it
was, its pool with the same entries at the same indices. Bytes that can be read are written again
as they were, if their texts and flag words are spelled as they would be written.
-/
namespace JvmAssembly

open Reader

namespace ClassFile

/-- The parts of a class file in a row. -/
def joined (version : Version) (pool : Bytes) (flags thisClass superClass : UInt16)
    (interfaces fields methods attributes : Bytes) : Bytes :=
  be32 magic ++ (version.write ++ (pool ++ (be16 flags ++ (be16 thisClass ++ (be16 superClass ++
    (interfaces ++ (fields ++ (methods ++ attributes))))))))

theorem write_eq_ok {f : ClassFile} {bytes : Bytes} : f.write = .ok bytes ↔
    ∃ pool, f.pool.write = .ok pool ∧
    ∃ interfaces, writeCounted (fun i => .ok (be16 i)) f.interfaces = .ok interfaces ∧
    ∃ fields, writeCounted MemberInfo.write f.fields = .ok fields ∧
    ∃ methods, writeCounted MemberInfo.write f.methods = .ok methods ∧
    ∃ attributes, writeCounted (fun a => .ok a.write) f.attributes = .ok attributes ∧
      bytes = joined f.version pool f.flags.bits f.thisClass f.superClass interfaces fields methods
        attributes := by
  simp only [write, bind_eq_ok, joined, List.append_assoc, pure, Except.pure, Except.ok.injEq,
    eq_comm (b := bytes)]

/-- What a class file is read from. -/
def Spelled (bytes : Bytes) (f : ClassFile) : Prop :=
  ∃ (pool : Bytes) (flags : UInt16) (interfaces fields methods attributes : Bytes),
    Pool.Spelled pool f.pool ∧ f.flags = .ofBits flags ∧
    writeCounted (fun i => .ok (be16 i)) f.interfaces = .ok interfaces ∧
    (∃ images, writeCounted MemberImage.write images = .ok fields ∧ (∀ m ∈ images, m.Sized) ∧
      images.map (MemberImage.value .field) = f.fields) ∧
    (∃ images, writeCounted MemberImage.write images = .ok methods ∧ (∀ m ∈ images, m.Sized) ∧
      images.map (MemberImage.value .method) = f.methods) ∧
    writeCounted (fun a => .ok a.write) f.attributes = .ok attributes ∧
    (∀ a ∈ f.attributes, a.Sized) ∧
    bytes = joined f.version pool flags f.thisClass f.superClass interfaces fields methods
      attributes

theorem Spelled.front {bytes : Bytes} {f : ClassFile} (spelled : Spelled bytes f) :
    ∃ rest, bytes = be32 magic ++ rest := by
  obtain ⟨_, _, _, _, _, _, _, _, _, _, _, _, _, whole⟩ := spelled
  exact ⟨_, whole⟩

theorem accepts_read : Accepts read Spelled := by
  refine (Accepts.u32.bind (h := fun word bytes f => word = magic ∧ Spelled (be32 magic ++ bytes) f)
    fun word => ?_).congr fun bytes f => ?_
  · by_cases same : word = magic
    · subst same
      refine (Version.accepts_read.bind fun version => Pool.accepts_read.bind fun pool =>
        AccessFlags.accepts_read.bind fun flags => Accepts.u16.bind fun thisClass =>
        Accepts.u16.bind fun superClass => undoes_u16.items.bind fun interfaces =>
        Accepts.bind (MemberImage.undoes_read .field).counted fun fields =>
        Accepts.bind (MemberImage.undoes_read .method).counted fun methods =>
        Attribute.undoes_read.items.map (m := ClassFile.mk version pool flags thisClass superClass
          interfaces fields methods)).congr fun bytes f => ?_
      constructor
      · rintro ⟨version, _, _, rfl, ⟨pool, poolBytes, _, spelled, ⟨_, _, _, ⟨flags, rfl, rfl⟩,
          ⟨thisClass, _, _, rfl, ⟨superClass, _, _, rfl, ⟨_, interfaces, _, ⟨words, _⟩,
          ⟨_, fields, _, fieldImages, ⟨_, methods, _, methodImages, ⟨_, ⟨written, sized⟩, rfl⟩,
          rfl⟩, rfl⟩, rfl⟩, rfl⟩, rfl⟩, rfl⟩, rfl⟩, rfl⟩
        exact ⟨rfl, poolBytes, flags, interfaces, fields, methods, _, spelled, rfl, words,
          fieldImages, methodImages, written, sized, rfl⟩
      · rintro ⟨_, pool, flags, interfaces, fields, methods, attributes, spelled, bits, words,
          fieldImages, methodImages, written, sized, whole⟩
        rw [List.append_cancel_left whole]
        exact ⟨f.version, _, _, rfl, ⟨f.pool, pool, _, spelled, ⟨f.flags, _, _, ⟨flags, rfl, bits⟩,
          ⟨f.thisClass, _, _, rfl, ⟨f.superClass, _, _, rfl, ⟨f.interfaces, interfaces, _,
          ⟨words, fun _ _ => trivial⟩, ⟨f.fields, fields, _, fieldImages,
          ⟨f.methods, methods, attributes, methodImages,
          ⟨f.attributes, ⟨written, sized⟩, rfl⟩, rfl⟩, rfl⟩, rfl⟩, rfl⟩, rfl⟩, rfl⟩, rfl⟩, rfl⟩
    · have other : (word != magic) = true := bne_iff_ne.mpr same
      rw [if_pos other]
      exact (Accepts.fail _).congr fun bytes f => by simp [same]
  · constructor
    · rintro ⟨_, _, _, rfl, ⟨rfl, spelled⟩, rfl⟩
      exact spelled
    · intro spelled
      obtain ⟨rest, rfl⟩ := spelled.front
      exact ⟨magic, _, _, rfl, ⟨rfl, spelled⟩, rfl⟩

theorem parse_eq_ok {bytes : Bytes} {f : ClassFile} : parse bytes = .ok f ↔ Spelled bytes f := by
  constructor
  · intro parsed
    unfold parse at parsed
    split at parsed
    · cases parsed
    · rename_i ran
      cases parsed
      obtain ⟨front, spelled, taken⟩ := accepts_read.reveals ran
      have whole : bytes = front := taken.trans (List.append_nil front)
      exact whole ▸ spelled
    · cases parsed
  · intro spelled
    have ran := accepts_read.reads spelled 0 []
    rw [List.append_nil] at ran
    simp only [parse, Reader.run, Cursor.start, ran]

/-- The sizes of all attribute bodies can be written. -/
structure Sized (f : ClassFile) : Prop where
  fields : ∀ m ∈ f.fields, ∀ a ∈ m.attributes, a.Sized
  methods : ∀ m ∈ f.methods, ∀ a ∈ m.attributes, a.Sized
  attributes : ∀ a ∈ f.attributes, a.Sized

/-- Every text and every sequence is short enough for its length to be written. -/
structure Short (f : ClassFile) : Prop where
  texts : ∀ s, .utf8 s ∈ f.pool.entries → (ModifiedUtf8.encode s).length ≤ 65535
  interfaces : f.interfaces.length ≤ 65535
  fields : f.fields.length ≤ 65535
  fieldAttributes : ∀ m ∈ f.fields, m.attributes.length ≤ 65535
  methods : f.methods.length ≤ 65535
  methodAttributes : ∀ m ∈ f.methods, m.attributes.length ≤ 65535
  attributes : f.attributes.length ≤ 65535

/-- What a member is read from. -/
theorem images_of_write {owner : FlagOwner} {members : List (MemberInfo owner)} {bytes : Bytes}
    (written : writeCounted MemberInfo.write members = .ok bytes)
    (sized : ∀ m ∈ members, ∀ a ∈ m.attributes, a.Sized) :
    ∃ images, writeCounted MemberImage.write images = .ok bytes ∧ (∀ m ∈ images, m.Sized) ∧
      images.map (MemberImage.value owner) = members := by
  refine ⟨members.map MemberInfo.image, ?_, ?_, ?_⟩
  · rwa [writeCounted_map fun m _ => rfl]
  · intro image member
    obtain ⟨m, within, rfl⟩ := List.mem_map.mp member
    exact sized m within
  · rw [List.map_map]
    exact List.map_id'' (fun m => m.value_image) members

theorem exists_write_members {owner : FlagOwner} {members : List (MemberInfo owner)}
    (short : members.length ≤ 65535) (attributes : ∀ m ∈ members, m.attributes.length ≤ 65535) :
    ∃ bytes, writeCounted MemberInfo.write members = .ok bytes := by
  refine exists_writeCounted short fun m member => ?_
  obtain ⟨bytes, written⟩ : ∃ bytes,
      writeCounted (fun a : Attribute => .ok a.write) m.attributes = .ok bytes :=
    exists_writeCounted (attributes m member) fun a _ => ⟨_, rfl⟩
  exact ⟨_, bind_eq_ok.mpr ⟨bytes, written, rfl⟩⟩

theorem short_of_write_members {owner : FlagOwner} {members : List (MemberInfo owner)} {bytes : Bytes}
    (written : writeCounted MemberInfo.write members = .ok bytes) :
    members.length ≤ 65535 ∧ ∀ m ∈ members, m.attributes.length ≤ 65535 := by
  obtain ⟨short, parts, each, _⟩ := writeCounted_eq_ok.mp written
  refine ⟨short, fun m member => ?_⟩
  obtain ⟨part, _, body⟩ := exists_of_forall₂ each.flip member
  obtain ⟨attributes, all, _⟩ := bind_eq_ok.mp body
  exact (writeCounted_eq_ok.mp all).1

/-- What is written is short. -/
theorem short_of_write {f : ClassFile} {bytes : Bytes} (numbered : f.pool.Numbered)
    (written : f.write = .ok bytes) : f.Short := by
  obtain ⟨pool, ofPool, interfaces, ofInterfaces, fields, ofFields, methods, ofMethods, attributes,
    ofAttributes, _⟩ := write_eq_ok.mp written
  obtain ⟨fieldCount, fieldAttributes⟩ := short_of_write_members ofFields
  obtain ⟨methodCount, methodAttributes⟩ := short_of_write_members ofMethods
  refine ⟨fun s member => ?_, (writeCounted_eq_ok.mp ofInterfaces).1, fieldCount, fieldAttributes,
    methodCount, methodAttributes, (writeCounted_eq_ok.mp ofAttributes).1⟩
  by_contra long
  obtain ⟨fault, failed⟩ := numbered.write_error member (Nat.not_le.mp long)
  cases failed.symm.trans ofPool

/-- Class files with numbered entries are written if and only if every text and sequence is short,
and read back then: only positions of entries can change, not their indices. -/
theorem parse_write {f : ClassFile} {p : Pool} {order : IndexOrder}
    (assigned : p.assign order = .ok f.pool) :
    (f.pool.Closed → f.Sized → f.Short → ∃ bytes pool, f.write = .ok bytes ∧
      parse bytes = .ok { f with pool } ∧ f.pool.Same pool) ∧
    (¬ f.Short → ∃ fault, f.write = .error fault) := by
  have numbered := Pool.numbered_of_assign assigned
  constructor
  · intro closed sized short
    obtain ⟨poolBytes, pool, ofPool, same, spelled⟩ := numbered.exists_read_write closed short.texts
    obtain ⟨interfaces, ofInterfaces⟩ : ∃ bytes,
        writeCounted (fun i : UInt16 => .ok (be16 i)) f.interfaces = .ok bytes :=
      exists_writeCounted short.interfaces fun _ _ => ⟨_, rfl⟩
    obtain ⟨fields, ofFields⟩ := exists_write_members short.fields short.fieldAttributes
    obtain ⟨methods, ofMethods⟩ := exists_write_members short.methods short.methodAttributes
    obtain ⟨attributes, ofAttributes⟩ : ∃ bytes,
        writeCounted (fun a : Attribute => .ok a.write) f.attributes = .ok bytes :=
      exists_writeCounted short.attributes fun _ _ => ⟨_, rfl⟩
    refine ⟨_, pool, write_eq_ok.mpr ⟨poolBytes, ofPool, interfaces, ofInterfaces, fields, ofFields,
      methods, ofMethods, attributes, ofAttributes, rfl⟩, parse_eq_ok.mpr ?_, same⟩
    exact ⟨poolBytes, f.flags.bits, interfaces, fields, methods, attributes, spelled,
      f.flags.ofBits_bits.symm, ofInterfaces, images_of_write ofFields sized.fields,
      images_of_write ofMethods sized.methods, ofAttributes, sized.attributes, rfl⟩
  · intro long
    cases written : f.write with
    | error fault => exact ⟨fault, rfl⟩
    | ok bytes => exact absurd (short_of_write numbered written) long

/-- A pool in which a string comes behind what it refers to. -/
def smallPool : Pool := ⟨#[.utf8 "A", .classInfo 0, .long 7, .string 0], ∅, none⟩

/-- A class with one field, in whose pool the string comes first. -/
def small : ClassFile where
  version := .java8
  pool := { smallPool with numbering := some ⟨#[3, 0, 1, 2], #[2, 3, 4, 1],
    #[none, some 3, some 0, some 1, some 2, none]⟩ }
  flags := .ofBits 0x21
  thisClass := 3
  superClass := 0
  interfaces := []
  fields := [⟨.ofBits 2, 2, 2, [⟨2, [0, 1]⟩]⟩]
  methods := []
  attributes := []

theorem parse_write_small : smallPool.assign .priority = .ok small.pool ∧
    ∃ bytes pool, small.write = .ok bytes ∧ parse bytes = .ok { small with pool } ∧
      small.pool.Same pool := by
  have assigned : smallPool.assign .priority = .ok small.pool := rfl
  refine ⟨assigned, (parse_write assigned).1 ?_ ⟨?_, nofun, nofun⟩ ⟨?_, ?_, ?_, ?_, ?_, nofun, ?_⟩⟩
  · simp [Pool.Closed, small, smallPool, Pool.size, ConstantOf.links]
  · simp [small, Attribute.Sized]
  · simp [small, smallPool]
    decide
  all_goals simp [small]

end ClassFile

/-- A class file as it stands in a file. -/
structure ClassImage where
  version : Version
  entries : List RawEntry
  flags : UInt16
  thisClass : UInt16
  superClass : UInt16
  interfaces : List UInt16
  fields : List MemberImage
  methods : List MemberImage
  attributes : List Attribute

namespace ClassImage

/-- One more than the last index of the pool. -/
def count (image : ClassImage) : Nat := 1 + (image.entries.map (·.width)).sum

def write (image : ClassImage) : Except Fault Bytes := do
  let entries ← image.entries.mapM RawEntry.write
  let interfaces ← writeCounted (fun i => .ok (be16 i)) image.interfaces
  let fields ← writeCounted MemberImage.write image.fields
  let methods ← writeCounted MemberImage.write image.methods
  let attributes ← writeCounted (fun a => .ok a.write) image.attributes
  return be32 ClassFile.magic ++ image.version.write ++
    (be16 (UInt16.ofNat image.count) ++ entries.flatten) ++ be16 image.flags ++
    be16 image.thisClass ++ be16 image.superClass ++ interfaces ++ fields ++ methods ++ attributes

/-- The counts and sizes that are written are those of the image. -/
structure Sized (image : ClassImage) : Prop where
  count : image.count ≤ 65535
  fields : ∀ m ∈ image.fields, m.Sized
  methods : ∀ m ∈ image.methods, m.Sized
  attributes : ∀ a ∈ image.attributes, a.Sized

/-- Texts are spelled as they would be written, and only declared flags are set. -/
structure Canonical (image : ClassImage) : Prop where
  texts : ∀ e ∈ image.entries, e.Canonical
  flags : image.flags &&& FlagOwner.cls.mask = image.flags
  fields : ∀ m ∈ image.fields, m.Declared .field
  methods : ∀ m ∈ image.methods, m.Declared .method

theorem write_eq_ok {image : ClassImage} {bytes : Bytes} : image.write = .ok bytes ↔
    ∃ entries, image.entries.mapM RawEntry.write = .ok entries ∧
    ∃ interfaces, writeCounted (fun i => .ok (be16 i)) image.interfaces = .ok interfaces ∧
    ∃ fields, writeCounted MemberImage.write image.fields = .ok fields ∧
    ∃ methods, writeCounted MemberImage.write image.methods = .ok methods ∧
    ∃ attributes, writeCounted (fun a => .ok a.write) image.attributes = .ok attributes ∧
      bytes = ClassFile.joined image.version (be16 (UInt16.ofNat image.count) ++ entries.flatten)
        image.flags image.thisClass image.superClass interfaces fields methods attributes := by
  simp only [write, bind_eq_ok, ClassFile.joined, List.append_assoc, pure, Except.pure,
    Except.ok.injEq, eq_comm (b := bytes)]

end ClassImage

namespace ClassFile

/-- Every accepted input is the bytes of an image. -/
theorem exists_image {bytes : Bytes} {f : ClassFile} (spelled : Spelled bytes f) :
    ∃ image : ClassImage, image.Sized ∧ image.write = .ok bytes := by
  obtain ⟨pool, flags, interfaces, fields, methods, attributes, ofPool, _, ofInterfaces,
    ⟨fieldImages, ofFields, fieldsSized, _⟩, ⟨methodImages, ofMethods, methodsSized, _⟩,
    ofAttributes, sized, rfl⟩ := spelled
  obtain ⟨raw, linked, spelled, _, _⟩ := ofPool
  obtain ⟨entries, parts, ofEntries, _, short, rfl⟩ := (RawPool.spelled_iff spelled.1).mp spelled
  refine ⟨⟨f.version, entries, flags, f.thisClass, f.superClass, f.interfaces, fieldImages,
    methodImages, f.attributes⟩, ⟨short, fieldsSized, methodsSized, sized⟩, ?_⟩
  exact ClassImage.write_eq_ok.mpr ⟨parts, mapM_eq_ok.mpr ofEntries, interfaces, ofInterfaces,
    fields, ofFields, methods, ofMethods, attributes, ofAttributes, rfl⟩

/-- An input that is the bytes of an image is read as that image. -/
theorem Spelled.of_image {bytes : Bytes} {f : ClassFile} {image : ClassImage} {cs : List RawConstant}
    (spelled : Spelled bytes f) (sized : image.Sized) (written : image.write = .ok bytes)
    (constants : List.Forall₂ (fun e c => RawEntry.constant e = .ok c) image.entries cs) :
    f.pool.Holds (RawPool.ofList cs) ∧ f.version = image.version ∧ f.flags = .ofBits image.flags ∧
      f.thisClass = image.thisClass ∧ f.superClass = image.superClass ∧
      f.interfaces = image.interfaces ∧ f.fields = image.fields.map (MemberImage.value .field) ∧
      f.methods = image.methods.map (MemberImage.value .method) ∧
      f.attributes = image.attributes := by
  obtain ⟨entries, ofEntries, interfaces, ofInterfaces, fields, ofFields, methods, ofMethods,
    attributes, ofAttributes, rfl⟩ := ClassImage.write_eq_ok.mp written
  obtain ⟨_, flags, _, _, _, _, ⟨raw, linked, ofPool, links, assigned⟩, bits, inInterfaces, inFields,
    inMethods, inAttributes, inSized, same⟩ := spelled
  have laid := RawPool.laid_ofList cs
  have pool : RawPool.Spelled (be16 (UInt16.ofNat image.count) ++ entries.flatten)
      (RawPool.ofList cs) :=
    (RawPool.spelled_iff laid).mpr ⟨_, _, mapM_eq_ok.mp ofEntries, constants, sized.count, rfl⟩
  have rest := List.append_cancel_left same
  obtain ⟨versions, _, rest⟩ := Version.accepts_read.unique rfl rfl rest
  obtain ⟨rfl, _, rest⟩ := RawPool.accepts_read.unique pool ofPool rest
  obtain ⟨rfl, _, rest⟩ := Accepts.u16.unique rfl rfl rest
  obtain ⟨thisClasses, _, rest⟩ := Accepts.u16.unique rfl rfl rest
  obtain ⟨superClasses, _, rest⟩ := Accepts.u16.unique rfl rfl rest
  obtain ⟨interfaces, _, rest⟩ := undoes_u16.items.unique ⟨ofInterfaces, fun _ _ => trivial⟩
    ⟨inInterfaces, fun _ _ => trivial⟩ rest
  obtain ⟨fields, _, rest⟩ := (MemberImage.undoes_read .field).counted.unique
    ⟨_, ofFields, sized.fields, rfl⟩ inFields rest
  obtain ⟨methods, _, rest⟩ := (MemberImage.undoes_read .method).counted.unique
    ⟨_, ofMethods, sized.methods, rfl⟩ inMethods rest
  obtain ⟨attributes, _, _⟩ := Attribute.undoes_read.items.unique ⟨ofAttributes, sized.attributes⟩
    ⟨inAttributes, inSized⟩ (congrArg (· ++ []) rest)
  exact ⟨Pool.holds_of_link laid links assigned, versions.symm, bits, thisClasses.symm,
    superClasses.symm, interfaces.symm, fields.symm, methods.symm, attributes.symm⟩

/-- Every input that is read is the bytes of an image, and if the image is canonical, what was
read is written as the same bytes. -/
theorem write_of_parse {bytes : Bytes} {f : ClassFile} (parsed : parse bytes = .ok f) :
    (∃ image : ClassImage, image.Sized ∧ image.write = .ok bytes) ∧
    ∀ image : ClassImage, image.Sized → image.write = .ok bytes → image.Canonical →
      f.write = .ok bytes := by
  have spelled := parse_eq_ok.mp parsed
  refine ⟨exists_image spelled, fun image sized written canonical => ?_⟩
  obtain ⟨cs, constants⟩ : ∃ cs, List.Forall₂ (fun e c => RawEntry.constant e = .ok c)
      image.entries cs := by
    refine exists_forall₂ fun e member => ?_
    obtain ⟨c, said, _⟩ := (canonical.texts e member).exists_constant
    exact ⟨c, said⟩
  obtain ⟨holds, version, flags, thisClass, superClass, interfaces, fields, methods, attributes⟩ :=
    spelled.of_image sized written constants
  obtain ⟨entries, ofEntries, interfaceBytes, ofInterfaces, fieldBytes, ofFields, methodBytes,
    ofMethods, attributeBytes, ofAttributes, rfl⟩ := ClassImage.write_eq_ok.mp written
  have pool := holds.write_canonical (RawPool.laid_ofList cs) canonical.texts
    (mapM_eq_ok.mp ofEntries) constants
  have fieldsWritten : writeCounted MemberInfo.write f.fields = .ok fieldBytes := by
    rw [fields, writeCounted_map fun m member => MemberImage.write_value (canonical.fields m member)]
    exact ofFields
  have methodsWritten : writeCounted MemberInfo.write f.methods = .ok methodBytes := by
    rw [methods,
      writeCounted_map fun m member => MemberImage.write_value (canonical.methods m member)]
    exact ofMethods
  refine write_eq_ok.mpr ⟨_, pool, _, interfaces ▸ ofInterfaces, _, fieldsWritten, _, methodsWritten,
    _, attributes ▸ ofAttributes, ?_⟩
  rw [version, thisClass, superClass, flags]
  simp only [AccessFlags.ofBits, canonical.flags]
  rfl

/-- A class with one field, in whose pool a long takes two indices. -/
def tiny : Bytes :=
  [0xCA, 0xFE, 0xBA, 0xBE, 0, 0, 0, 52, 0, 6, 7, 0, 4, 5, 0, 0, 0, 0, 0, 0, 0, 7,
    1, 0, 3, 0x41, 0xC0, 0x80, 1, 0, 1, 0x49, 0, 0x21, 0, 1, 0, 0, 0, 0,
    0, 1, 0, 2, 0, 4, 0, 5, 0, 1, 0, 5, 0, 0, 0, 1, 9, 0, 0, 0, 0]

def tinyImage : ClassImage where
  version := .java8
  entries := [.plain (.classInfo 4), .plain (.long 7), .text [0x41, 0xC0, 0x80], .text [0x49]]
  flags := 0x21
  thisClass := 1
  superClass := 0
  interfaces := []
  fields := [⟨2, 4, 5, [⟨5, [9]⟩]⟩]
  methods := []
  attributes := []

theorem write_of_parse_tiny : ∃ f, parse tiny = .ok f ∧ f.write = .ok tiny := by
  obtain ⟨f, parsed⟩ : ∃ f, parse tiny = .ok f := ⟨_, rfl⟩
  refine ⟨f, parsed, (write_of_parse parsed).2 tinyImage ⟨by decide, ?_, nofun, nofun⟩ rfl
    ⟨?_, by decide, ?_, nofun⟩⟩
  · simp [tinyImage, MemberImage.Sized, Attribute.Sized]
  · simp only [tinyImage, List.forall_mem_cons]
    exact ⟨trivial, trivial, ⟨"A\x00", by decide⟩, ⟨"I", by decide⟩,
      fun _ member => absurd member List.not_mem_nil⟩
  · simp [tinyImage, MemberImage.Declared]
    decide

end ClassFile

end JvmAssembly
