import Mathlib
import JvmAssembly.ClassFile.Basic
import JvmAssembly.Proofs.Pool.RoundTrip

/-!
The parts of a class file as bytes. An image of a part keeps what reading it drops: the spelling of
every text, and every bit of a flag word. Readers are described by the images that they accept.
-/
namespace JvmAssembly

open Reader

section Undoes

variable {α ι : Type}

/-- The reader accepts what is written of an image that fits, and gives the value of the image. -/
def Reader.Undoes (read : Reader α) (write : ι → Except Fault Bytes) (fits : ι → Prop)
    (value : ι → α) : Prop :=
  Accepts read fun bytes a => ∃ i, write i = .ok bytes ∧ fits i ∧ value i = a

theorem forall₂_undoes {write : ι → Except Fault Bytes} {fits : ι → Prop} {value : ι → α}
    {parts : List Bytes} {items : List α} :
    List.Forall₂ (fun part a => ∃ i, write i = .ok part ∧ fits i ∧ value i = a) parts items ↔
      ∃ images, List.Forall₂ (fun part i => write i = .ok part) parts images ∧
        (∀ i ∈ images, fits i) ∧ images.map value = items := by
  constructor
  · intro each
    induction each with
    | nil => exact ⟨[], .nil, nofun, rfl⟩
    | cons one _ ih =>
        obtain ⟨i, written, fit, rfl⟩ := one
        obtain ⟨images, rest, all, rfl⟩ := ih
        exact ⟨i :: images, .cons written rest, List.forall_mem_cons.mpr ⟨fit, all⟩, rfl⟩
  · rintro ⟨images, each, all, rfl⟩
    induction each with
    | nil => exact .nil
    | cons one _ ih =>
        rw [List.forall_mem_cons] at all
        exact .cons ⟨_, one, all.1, rfl⟩ (ih all.2)

theorem Reader.Undoes.counted {read : Reader α} {write : ι → Except Fault Bytes}
    {fits : ι → Prop} {value : ι → α} (undoes : read.Undoes write fits value) :
    (Reader.counted read).Undoes (writeCounted write) (fun images => ∀ i ∈ images, fits i)
      (List.map value) := by
  refine (Accepts.counted undoes).congr fun bytes items => ?_
  simp only [Counted, forall₂_undoes, writeCounted_eq_ok]
  constructor
  · rintro ⟨short, parts, ⟨images, each, all, rfl⟩, rfl⟩
    rw [List.length_map] at short ⊢
    exact ⟨images, ⟨short, parts, each, rfl⟩, all, rfl⟩
  · rintro ⟨images, ⟨short, parts, each, rfl⟩, all, rfl⟩
    rw [List.length_map]
    exact ⟨short, parts, ⟨images, each, all, rfl⟩, rfl⟩

/-- Where an image is the value itself. -/
theorem Reader.Undoes.items {read : Reader α} {write : α → Except Fault Bytes} {fits : α → Prop}
    (undoes : read.Undoes write fits id) : Accepts (Reader.counted read) fun bytes items =>
      writeCounted write items = .ok bytes ∧ ∀ a ∈ items, fits a := by
  refine undoes.counted.congr fun bytes items => ?_
  simp only [List.map_id, exists_eq_right_right]

end Undoes

theorem undoes_u16 : (ofScan Scan.u16).Undoes (fun w => .ok (be16 w)) (fun _ => True) id := by
  refine Accepts.u16.congr fun bytes w => ?_
  constructor
  · rintro rfl
    exact ⟨w, rfl, trivial, rfl⟩
  · rintro ⟨_, written, _, rfl⟩
    cases written
    rfl

namespace AccessFlags

variable {owner : FlagOwner}

theorem accepts_read : Accepts (read : Reader (AccessFlags owner)) fun bytes flags =>
    ∃ word, bytes = be16 word ∧ flags = ofBits word :=
  Accepts.u16.map

theorem ofBits_bits (flags : AccessFlags owner) : ofBits flags.bits = flags := by
  obtain ⟨bits, declared⟩ := flags
  simp only [ofBits, declared]

end AccessFlags

theorem Version.accepts_read : Accepts Version.read fun bytes v => bytes = v.write := by
  refine (Accepts.u16.bind fun minor =>
    Accepts.u16.map (m := fun major => Version.mk major minor)).congr fun bytes v => ?_
  constructor
  · rintro ⟨minor, _, _, rfl, ⟨major, rfl, rfl⟩, rfl⟩
    rfl
  · rintro rfl
    exact ⟨v.minor, _, _, rfl, ⟨v.major, rfl, rfl⟩, rfl⟩

namespace Attribute

/-- The size of the body can be written. -/
def Sized (a : Attribute) : Prop := a.info.length < 2 ^ 32

theorem undoes_read : read.Undoes (fun a => .ok a.write) Sized id := by
  refine (Accepts.u16.bind fun name => Accepts.u32.bind fun size =>
    (Accepts.take size.toNat).map (m := Attribute.mk name)).congr fun bytes a => ?_
  constructor
  · rintro ⟨name, _, _, rfl, ⟨size, _, _, rfl, ⟨info, ⟨rfl, count⟩, rfl⟩, rfl⟩, rfl⟩
    refine ⟨⟨name, _⟩, ?_, ?_, rfl⟩
    · simp only [write, count, UInt32.ofNat_toNat, List.append_assoc]
    · rw [Sized, count]
      exact size.toNat_lt
  · rintro ⟨a, written, small, rfl⟩
    cases written
    have count : (UInt32.ofNat a.info.length).toNat = a.info.length := by
      rw [UInt32.toNat_ofNat']
      exact Nat.mod_eq_of_lt small
    exact ⟨a.nameIndex, _, _, rfl, ⟨_, _, _, rfl, ⟨a.info, ⟨rfl, count.symm⟩, rfl⟩, rfl⟩,
      by rw [write, List.append_assoc]⟩

end Attribute

/-- A field or method with its flag word as it stands in a file. -/
structure MemberImage where
  flags : UInt16
  nameIndex : UInt16
  descriptorIndex : UInt16
  attributes : List Attribute

namespace MemberImage

def write (m : MemberImage) : Except Fault Bytes := do
  let attributes ← writeCounted (fun a => .ok a.write) m.attributes
  return be16 m.flags ++ be16 m.nameIndex ++ be16 m.descriptorIndex ++ attributes

/-- The sizes of all bodies can be written. -/
def Sized (m : MemberImage) : Prop := ∀ a ∈ m.attributes, a.Sized

/-- The member that is read. -/
def value (owner : FlagOwner) (m : MemberImage) : MemberInfo owner :=
  ⟨.ofBits m.flags, m.nameIndex, m.descriptorIndex, m.attributes⟩

/-- Only declared flags are set. -/
def Declared (owner : FlagOwner) (m : MemberImage) : Prop := m.flags &&& owner.mask = m.flags

theorem write_eq_ok {m : MemberImage} {bytes : Bytes} : m.write = .ok bytes ↔
    ∃ attributes, writeCounted (fun a => .ok a.write) m.attributes = .ok attributes ∧
      bytes = be16 m.flags ++ (be16 m.nameIndex ++ (be16 m.descriptorIndex ++ attributes)) := by
  rw [write, bind_eq_ok]
  refine exists_congr fun attributes => and_congr_right fun _ => ?_
  simp only [pure, Except.pure, Except.ok.injEq, List.append_assoc]
  exact eq_comm

theorem undoes_read (owner : FlagOwner) :
    (MemberInfo.read : Reader (MemberInfo owner)).Undoes write Sized (value owner) := by
  refine (AccessFlags.accepts_read.bind fun flags => Accepts.u16.bind fun name =>
    Accepts.u16.bind fun descriptor => Attribute.undoes_read.items.map
      (m := MemberInfo.mk flags name descriptor)).congr fun bytes m => ?_
  simp only [write_eq_ok]
  constructor
  · rintro ⟨_, _, _, ⟨flags, rfl, rfl⟩, ⟨name, _, _, rfl, ⟨descriptor, _, _, rfl,
      ⟨attributes, ⟨written, sized⟩, rfl⟩, rfl⟩, rfl⟩, rfl⟩
    exact ⟨⟨flags, name, descriptor, attributes⟩, ⟨_, written, rfl⟩, sized, rfl⟩
  · rintro ⟨image, ⟨attributes, written, rfl⟩, sized, rfl⟩
    exact ⟨_, _, _, ⟨image.flags, rfl, rfl⟩, ⟨_, _, _, rfl, ⟨_, _, _, rfl,
      ⟨_, ⟨written, sized⟩, rfl⟩, rfl⟩, rfl⟩, rfl⟩

/-- What is read of an image writes it, if it has declared flags only. -/
theorem write_value {owner : FlagOwner} {m : MemberImage} (declared : m.Declared owner) :
    (m.value owner).write = m.write := by
  simp only [MemberInfo.write, write, value, AccessFlags.ofBits]
  rw [declared]

end MemberImage

/-- The image of a member, from which it is read. -/
def MemberInfo.image {owner : FlagOwner} (m : MemberInfo owner) : MemberImage :=
  ⟨m.flags.bits, m.nameIndex, m.descriptorIndex, m.attributes⟩

theorem MemberInfo.value_image {owner : FlagOwner} (m : MemberInfo owner) :
    m.image.value owner = m := by
  rw [MemberImage.value, image, AccessFlags.ofBits_bits]

end JvmAssembly
