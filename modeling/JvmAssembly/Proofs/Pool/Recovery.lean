import Mathlib
import JvmAssembly.Disassembly.Script
import JvmAssembly.Proofs.Descriptor
import JvmAssembly.Proofs.Pool.Interning
import JvmAssembly.Proofs.Pool.Numbering

/-!
What was interned is found again. Interning leads to a pool that holds what was asked for; from
then on, however the pool grows, interning the same thing answers the same entry and leaves the pool
alone, and reading the entry gives the thing itself.
-/
namespace JvmAssembly

open Relation

namespace Pool

variable {p q : Pool} {c : Constant} {ref : ConstantRef}

/-- Whatever one pool finds, the other finds at the same place. -/
def Within (p q : Pool) : Prop :=
  ∀ ⦃c : Constant⦄ ⦃ref : ConstantRef⦄, p.find? c = some ref → q.find? c = some ref

theorem within_of_interned (steps : ReflTransGen Interned p q) : p.Within q := by
  induction steps with
  | refl => exact fun _ _ found => found
  | tail _ last ih =>
      obtain ⟨c, rfl⟩ := last
      exact fun _ _ found => find?_intern_of_found (ih found) c

theorem within_assign {order : IndexOrder} (assigned : p.assign order = .ok q) : p.Within q := by
  obtain ⟨n, rfl, _⟩ := numbers_of_assign assigned
  exact fun _ _ found => found

theorem intern_of_found (found : p.find? c = some ref) : p.intern c = (ref, p) := by
  rw [intern, found]

theorem coherent_of_interned (coherent : p.Coherent) (steps : ReflTransGen Interned p q) :
    q.Coherent := by
  induction steps with
  | refl => exact coherent
  | tail _ last ih =>
      obtain ⟨c, rfl⟩ := last
      exact ih.intern c

/-! What a pool can hold. -/

def Spells (p : Pool) (s : String) (ref : ConstantRef) : Prop := p.find? (.utf8 s) = some ref

def HasString (p : Pool) (s : String) (ref : ConstantRef) : Prop :=
  ∃ text, p.Spells s text ∧ p.find? (.string text) = some ref

def HasClass (p : Pool) (name : String) (ref : ConstantRef) : Prop :=
  ∃ text, p.Spells name text ∧ p.find? (.classInfo text) = some ref

def HasNameAndType (p : Pool) (name descriptor : String) (ref : ConstantRef) : Prop :=
  ∃ n, p.Spells name n ∧ ∃ t, p.Spells descriptor t ∧ p.find? (.nameAndType n t) = some ref

def HasField (p : Pool) (owner name descriptor : String) (ref : ConstantRef) : Prop :=
  ∃ o, p.HasClass owner o ∧ ∃ m, p.HasNameAndType name descriptor m ∧
    p.find? (.fieldRef o m) = some ref

def HasMethod (p : Pool) (owner name descriptor : String) (isInterface : Bool)
    (ref : ConstantRef) : Prop :=
  ∃ o, p.HasClass owner o ∧ ∃ m, p.HasNameAndType name descriptor m ∧
    p.find? (.methodRef o m isInterface) = some ref

/-- A value as an entry of its own. -/
def HasValue (p : Pool) : Value → ConstantRef → Prop
  | .int n, ref => p.find? (.integer n) = some ref
  | .long n, ref => p.find? (.long n) = some ref
  | .float bits, ref => p.find? (.float bits) = some ref
  | .double bits, ref => p.find? (.double bits) = some ref
  | .string s, ref => p.HasString s ref
  | .cls r, ref => p.HasClass r.className ref

/-! Reading what a coherent pool holds. -/

theorem Coherent.get (coherent : p.Coherent) (found : p.find? c = some ref) :
    p.get ref = .ok c := by
  rw [Pool.get, coherent.entry found]

theorem Coherent.getText (coherent : p.Coherent) {s : String} (held : p.Spells s ref) :
    p.getText ref = .ok s := by
  rw [Pool.getText, coherent.get held]
  rfl

theorem Coherent.getClassName (coherent : p.Coherent) {name : String}
    (held : p.HasClass name ref) : p.getClassName ref = .ok name := by
  obtain ⟨text, spelled, found⟩ := held
  rw [Pool.getClassName, coherent.get found]
  exact coherent.getText spelled

theorem Coherent.getNameAndType (coherent : p.Coherent) {name descriptor : String}
    (held : p.HasNameAndType name descriptor ref) :
    p.getNameAndType ref = .ok (name, descriptor) := by
  obtain ⟨n, spelled, t, spelled', found⟩ := held
  exact bind_eq_ok.mpr ⟨_, coherent.get found, bind_eq_ok.mpr ⟨_, coherent.getText spelled,
    bind_eq_ok.mpr ⟨_, coherent.getText spelled', rfl⟩⟩⟩

theorem Coherent.getMember_field (coherent : p.Coherent) {owner name descriptor : String}
    (held : p.HasField owner name descriptor ref) :
    p.getMember ref = .ok ⟨owner, name, descriptor, false⟩ := by
  obtain ⟨o, hasOwner, m, hasMember, found⟩ := held
  exact bind_eq_ok.mpr ⟨_, coherent.get found, bind_eq_ok.mpr ⟨_, rfl,
    bind_eq_ok.mpr ⟨_, coherent.getNameAndType hasMember,
      bind_eq_ok.mpr ⟨_, coherent.getClassName hasOwner, rfl⟩⟩⟩⟩

theorem Coherent.getMember_method (coherent : p.Coherent) {owner name descriptor : String}
    {isInterface : Bool} (held : p.HasMethod owner name descriptor isInterface ref) :
    p.getMember ref = .ok ⟨owner, name, descriptor, isInterface⟩ := by
  obtain ⟨o, hasOwner, m, hasMember, found⟩ := held
  exact bind_eq_ok.mpr ⟨_, coherent.get found, bind_eq_ok.mpr ⟨_, rfl,
    bind_eq_ok.mpr ⟨_, coherent.getNameAndType hasMember,
      bind_eq_ok.mpr ⟨_, coherent.getClassName hasOwner, rfl⟩⟩⟩⟩

/-! What an entry meant it goes on to mean as the pool grows. -/

theorem Extends.get (grown : p.Extends q) (found : p.get ref = .ok c) : q.get ref = .ok c :=
  get_eq_ok.mpr (grown.entry (get_eq_ok.mp found))

theorem Extends.getText (grown : p.Extends q) {s : String} (found : p.getText ref = .ok s) :
    q.getText ref = .ok s := by
  obtain ⟨c, held, found⟩ := bind_eq_ok.mp found
  refine bind_eq_ok.mpr ⟨c, grown.get held, ?_⟩
  cases c with
  | utf8 text => exact found
  | _ => cases found

theorem Extends.getClassName (grown : p.Extends q) {name : String}
    (found : p.getClassName ref = .ok name) : q.getClassName ref = .ok name := by
  obtain ⟨c, held, found⟩ := bind_eq_ok.mp found
  refine bind_eq_ok.mpr ⟨c, grown.get held, ?_⟩
  cases c with
  | classInfo text => exact grown.getText found
  | _ => cases found

theorem Extends.getNameAndType (grown : p.Extends q) {spelled : String × String}
    (found : p.getNameAndType ref = .ok spelled) : q.getNameAndType ref = .ok spelled := by
  obtain ⟨c, held, found⟩ := bind_eq_ok.mp found
  refine bind_eq_ok.mpr ⟨c, grown.get held, ?_⟩
  cases c with
  | nameAndType name descriptor =>
      obtain ⟨n, first, found⟩ := bind_eq_ok.mp found
      obtain ⟨t, second, found⟩ := bind_eq_ok.mp found
      exact bind_eq_ok.mpr ⟨n, grown.getText first, bind_eq_ok.mpr ⟨t, grown.getText second, found⟩⟩
  | _ => cases found

theorem Extends.getMember (grown : p.Extends q) {m : Member} (found : p.getMember ref = .ok m) :
    q.getMember ref = .ok m := by
  obtain ⟨c, held, found⟩ := bind_eq_ok.mp found
  refine bind_eq_ok.mpr ⟨c, grown.get held, ?_⟩
  cases c with
  | fieldRef owner member | methodRef owner member isInterface =>
      obtain ⟨_, parts, found⟩ := bind_eq_ok.mp found
      cases parts
      obtain ⟨⟨name, descriptor⟩, typed, found⟩ := bind_eq_ok.mp found
      obtain ⟨o, named, found⟩ := bind_eq_ok.mp found
      exact bind_eq_ok.mpr ⟨_, rfl, bind_eq_ok.mpr ⟨_, grown.getNameAndType typed,
        bind_eq_ok.mpr ⟨o, grown.getClassName named, found⟩⟩⟩
  | _ => cases found

end Pool

namespace Interning

open Pool

variable {α β : Type} {x : Interning α} {Holds : Pool → α → Prop}

/-- Interning leads to a pool that holds what it answers. This lasts, and where it holds interning
does nothing. -/
structure Finds (x : Interning α) (Holds : Pool → α → Prop) : Prop where
  interns : Interns x
  made (p : Pool) : Holds (x p).2 (x p).1
  kept {p q : Pool} {a : α} (within : p.Within q) (held : Holds p a) : Holds q a
  found {p : Pool} {a : α} (held : Holds p a) : x p = (a, p)

theorem finds_pure (a : α) : Finds (pure a) fun _ b => b = a where
  interns := interns_pure a
  made _ := rfl
  kept _ held := held
  found := by
    rintro p b rfl
    rfl

theorem finds_constant (c : Constant) : Finds (constant c) fun p ref => p.find? c = some ref where
  interns := interns_constant c
  made p := find?_intern p c
  kept within held := within held
  found held := intern_of_found held

theorem Finds.bind {f : α → Interning β} {Holds' : α → Pool → β → Prop} (first : Finds x Holds)
    (later : ∀ a, Finds (f a) (Holds' a)) :
    Finds (x >>= f) fun p b => ∃ a, Holds p a ∧ Holds' a p b where
  interns := first.interns.bind fun a => (later a).interns
  made p := ⟨_, first.kept (within_of_interned ((later _).interns _)) (first.made p),
    (later _).made _⟩
  kept := by
    rintro p q b within ⟨a, held, held'⟩
    exact ⟨a, first.kept within held, (later a).kept within held'⟩
  found := by
    rintro p b ⟨a, held, held'⟩
    change f (x p).1 (x p).2 = (b, p)
    rw [first.found held]
    exact (later a).found held'

theorem Finds.congr (h : Finds x Holds) {Holds' : Pool → α → Prop}
    (same : ∀ p a, Holds p a ↔ Holds' p a) : Finds x Holds' := by
  have equal : Holds = Holds' := funext₂ fun p a => propext (same p a)
  exact equal ▸ h

theorem Finds.map (h : Finds x Holds) (f : α → β) :
    Finds (f <$> x) fun p b => ∃ a, Holds p a ∧ b = f a :=
  h.bind fun a => finds_pure (f a)

theorem finds_mapM {xs : List β} {f : β → Interning α} {Held : β → Pool → α → Prop}
    (each : ∀ x, Finds (f x) (Held x)) :
    Finds (xs.mapM f) fun p ys => List.Forall₂ (fun x y => Held x p y) xs ys := by
  induction xs with
  | nil =>
      refine (finds_pure []).congr fun p ys => ?_
      rw [List.forall₂_nil_left_iff]
  | cons x xs ih =>
      rw [List.mapM_cons]
      refine ((each x).bind fun y => ih.bind fun ys => finds_pure (y :: ys)).congr fun p ys => ?_
      constructor
      · rintro ⟨y, held, rest, others, rfl⟩
        exact .cons held others
      · rintro (_ | ⟨held, others⟩)
        exact ⟨_, held, _, others, rfl⟩

theorem Finds.discard (h : Finds x Holds) :
    Finds (discard x : Interning Unit) fun p _ => ∃ a, Holds p a where
  interns := h.interns.discard
  made p := ⟨_, h.made p⟩
  kept := by
    rintro p q _ within ⟨a, held⟩
    exact ⟨a, h.kept within held⟩
  found := by
    rintro p _ ⟨a, held⟩
    exact congrArg (fun r => ((), r.2)) (h.found held)

theorem finds_forM {xs : List β} {f : β → Interning Unit} {Held : β → Pool → Prop}
    (each : ∀ x, Finds (f x) fun p _ => Held x p) :
    Finds (xs.forM f) fun p _ => ∀ x ∈ xs, Held x p := by
  induction xs with
  | nil => exact (finds_pure ()).congr fun p a => iff_of_true rfl (List.forall_mem_nil _)
  | cons x xs ih =>
      refine ((each x).bind fun _ => ih).congr fun p a => ?_
      rw [List.forall_mem_cons, exists_const]

theorem finds_text (s : String) : Finds (text s) fun p => p.Spells s := finds_constant _

theorem finds_string (s : String) : Finds (string s) fun p => p.HasString s :=
  (finds_text s).bind fun _ => finds_constant _

theorem finds_className (name : String) : Finds (className name) fun p => p.HasClass name :=
  (finds_text name).bind fun _ => finds_constant _

theorem finds_cls (r : RefType) : Finds (cls r) fun p => p.HasClass r.className :=
  finds_className _

theorem finds_nameAndType (name descriptor : String) :
    Finds (nameAndType name descriptor) fun p => p.HasNameAndType name descriptor :=
  (finds_text name).bind fun _ => (finds_text descriptor).bind fun _ => finds_constant _

theorem finds_fieldRef (owner : BinaryName) (name : String) (type : FieldType) :
    Finds (fieldRef owner name type) fun p => p.HasField owner.text name type.render :=
  (finds_className _).bind fun _ => (finds_nameAndType _ _).bind fun _ => finds_constant _

theorem finds_methodRef (owner : RefType) (name : String) (descriptor : MethodDescriptor)
    (isInterface : Bool) : Finds (methodRef owner name descriptor isInterface) fun p =>
      p.HasMethod owner.className name descriptor.render isInterface :=
  (finds_cls _).bind fun _ => (finds_nameAndType _ _).bind fun _ => finds_constant _

/-- The entry of a value that has no short form. -/
def value : Value → Interning ConstantRef
  | .int n => constant (.integer n)
  | .long n => constant (.long n)
  | .float bits => constant (.float bits)
  | .double bits => constant (.double bits)
  | .string s => string s
  | .cls r => cls r

theorem finds_value (v : Value) : Finds (value v) fun p => p.HasValue v := by
  cases v with
  | int n => exact finds_constant _
  | long n => exact finds_constant _
  | float bits => exact finds_constant _
  | double bits => exact finds_constant _
  | string s => exact finds_string s
  | cls r => exact finds_cls r

end Interning

/-- The table of a pool leads from the index of an entry to the entry. -/
theorem Pool.Numbered.lookup {p : Pool} (numbered : p.Numbered) {table : Pool.IndexTable}
    (same : p.indexTable = .ok table) {ref : ConstantRef} {index : UInt16}
    (known : p.indexOf ref = .ok index) : table.lookup index = .ok ref := by
  have back := numbered.indexOf_iff.mp known
  obtain ⟨n, refs, numbering, -, -⟩ := numbered
  rw [Pool.indexTable, numbering] at same
  cases same
  rwa [Pool.entryAt, numbering] at back

namespace Constants

open Pool

variable {k : Constants} {index : UInt16} {ref : ConstantRef}

theorem cls_eq (coherent : k.pool.Coherent) (known : k.table.lookup index = .ok ref)
    {r : RefType} (held : k.pool.HasClass r.className ref) : k.cls index = .ok r := by
  exact bind_eq_ok.mpr ⟨_, known, bind_eq_ok.mpr ⟨_, coherent.getClassName held,
    RefType.ofClassName_className r⟩⟩

theorem value_eq (coherent : k.pool.Coherent) (known : k.table.lookup index = .ok ref)
    {v : Value} (held : k.pool.HasValue v ref) : k.value index = .ok v := by
  refine bind_eq_ok.mpr ⟨ref, known, ?_⟩
  cases v with
  | int n | long n | float bits | double bits =>
      exact bind_eq_ok.mpr ⟨_, coherent.get held, rfl⟩
  | string s =>
      obtain ⟨text, spelled, found⟩ := held
      exact bind_eq_ok.mpr ⟨_, coherent.get found, bind_eq_ok.mpr ⟨_, coherent.getText spelled, rfl⟩⟩
  | cls r =>
      obtain ⟨text, -, found⟩ := id held
      exact bind_eq_ok.mpr ⟨_, coherent.get found,
        bind_eq_ok.mpr ⟨_, cls_eq coherent known held, rfl⟩⟩

end Constants

end JvmAssembly
