import Mathlib
import JvmAssembly.Builder.Basic
import JvmAssembly.Proofs.Outcome

/-!
Interning as steps, one constant at a time. A pool only grows: entries stay where they are, and a
constant that was found once is found at the same place later.
-/
namespace JvmAssembly

open Relation

namespace Pool

/-- One constant is interned. -/
def Interned (p q : Pool) : Prop := ∃ c, q = (p.intern c).2

/-- The entries of one pool are the first ones of another. -/
def Extends (p q : Pool) : Prop := p.entries.toList <+: q.entries.toList

theorem Extends.trans {p q r : Pool} (first : p.Extends q) (second : q.Extends r) : p.Extends r :=
  List.IsPrefix.trans first second

theorem Interned.extends {p q : Pool} (interned : p.Interned q) : p.Extends q := by
  obtain ⟨c, rfl⟩ := interned
  unfold intern
  split
  · exact List.prefix_refl _
  · rw [Extends, append, Array.toList_push]
    exact List.prefix_append _ _

theorem extends_of_interned {p q : Pool} (steps : ReflTransGen Interned p q) : p.Extends q := by
  induction steps with
  | refl => exact List.prefix_refl _
  | tail _ last ih => exact ih.trans last.extends

theorem Extends.entry {p q : Pool} (grown : p.Extends q) {ref : ConstantRef} {c : Constant}
    (found : p.entries[ref]? = some c) : q.entries[ref]? = some c := by
  rw [← Array.getElem?_toList] at found ⊢
  obtain ⟨more, same⟩ := grown
  rw [← same, List.getElem?_append_left (List.getElem?_eq_some_iff.mp found).1, found]

variable {p : Pool} {c : Constant} {ref : ConstantRef}

theorem get_eq_ok : p.get ref = .ok c ↔ p.entries[ref]? = some c := by
  unfold get
  cases p.entries[ref]? with
  | none => simp
  | some other => simp

/-- Constants are found at entries that hold them, and those of all entries are found. -/
structure Coherent (p : Pool) : Prop where
  entry {c : Constant} {ref : ConstantRef} (found : p.find? c = some ref) :
    p.entries[ref]? = some c
  known {c : Constant} (member : c ∈ p.entries) : ∃ ref, p.find? c = some ref

theorem find?_empty (c : Constant) : empty.find? c = none := Std.HashMap.getElem?_empty

theorem intern_empty (c : Constant) : empty.intern c = (0, empty.append c) := by
  rw [intern, find?_empty]
  rfl

theorem coherent_empty : empty.Coherent := by
  constructor
  · intro c ref found
    rw [find?_empty] at found
    cases found
  · intro c member
    exact absurd member (Array.not_mem_empty c)

/-- A constant that was found is found at the same place. -/
theorem find?_append (p : Pool) (c other : Constant) :
    (p.append c).find? other = (p.find? other).or (if c = other then some p.size else none) := by
  simp only [find?, append, Std.HashMap.getElem?_insertIfNew, Std.HashMap.mem_iff_isSome_getElem?,
    beq_iff_eq, size]
  by_cases same : c = other
  · subst same
    cases p.lookup[c]? <;> simp
  · simp [same]

theorem Coherent.append (coherent : p.Coherent) (c : Constant) : (p.append c).Coherent := by
  constructor
  · intro other ref found
    rw [Pool.append, Array.getElem?_push]
    rw [find?_append, Option.or_eq_some_iff] at found
    rcases found with found | ⟨_, found⟩
    · have entry := coherent.entry found
      have inside : ref < p.entries.size := (Array.getElem?_eq_some_iff.mp entry).1
      rw [if_neg inside.ne, entry]
    · split at found
      · rename_i same
        cases found
        exact (if_pos rfl).trans (congrArg some same)
      · cases found
  · intro other member
    rw [find?_append]
    rcases Array.mem_push.mp member with old | rfl
    · obtain ⟨ref, found⟩ := coherent.known old
      exact ⟨ref, by rw [found, Option.some_or]⟩
    · rw [if_pos rfl]
      cases p.find? other with
      | none => exact ⟨_, rfl⟩
      | some ref => exact ⟨ref, rfl⟩

theorem Coherent.intern (coherent : p.Coherent) (c : Constant) : (p.intern c).2.Coherent := by
  unfold Pool.intern
  split
  · exact coherent
  · exact coherent.append c

theorem find?_intern (p : Pool) (c : Constant) :
    (p.intern c).2.find? c = some (p.intern c).1 := by
  unfold intern
  split
  · assumption
  · rename_i missing
    rw [find?_append, missing, if_pos rfl]
    rfl

theorem find?_intern_of_found (found : p.find? c = some ref) (other : Constant) :
    (p.intern other).2.find? c = some ref := by
  unfold intern
  split
  · exact found
  · rw [find?_append, found, Option.some_or]

end Pool

namespace Interning

variable {α β : Type}

/-- Whatever pool it starts from, interning is a number of steps. -/
def Interns (x : Interning α) : Prop := ∀ p, ReflTransGen Pool.Interned p (x p).2

theorem interns_pure (a : α) : Interns (pure a) := fun _ => .refl

theorem Interns.bind {x : Interning α} {f : α → Interning β} (first : Interns x)
    (later : ∀ a, Interns (f a)) : Interns (x >>= f) := fun p =>
  (first p).trans (later (x p).1 (x p).2)

theorem Interns.discard {x : Interning α} (h : Interns x) : Interns (discard x : Interning Unit) :=
  fun p => h p

theorem interns_constant (c : Constant) : Interns (constant c) := fun _ => .single ⟨c, rfl⟩

theorem interns_text (s : String) : Interns (text s) := interns_constant _

theorem interns_string (s : String) : Interns (string s) :=
  (interns_text s).bind fun _ => interns_constant _

theorem interns_className (name : String) : Interns (className name) :=
  (interns_text name).bind fun _ => interns_constant _

theorem interns_cls (r : RefType) : Interns (cls r) := interns_className _

theorem interns_nameAndType (name descriptor : String) : Interns (nameAndType name descriptor) :=
  (interns_text name).bind fun _ => (interns_text descriptor).bind fun _ => interns_constant _

theorem interns_fieldRef (owner : BinaryName) (name : String) (type : FieldType) :
    Interns (fieldRef owner name type) :=
  (interns_className _).bind fun _ => (interns_nameAndType _ _).bind fun _ => interns_constant _

theorem interns_methodRef (owner : RefType) (name : String) (descriptor : MethodDescriptor)
    (isInterface : Bool) : Interns (methodRef owner name descriptor isInterface) :=
  (interns_cls _).bind fun _ => (interns_nameAndType _ _).bind fun _ => interns_constant _

theorem interns_internLocal (name : Option String) (type : FieldType) :
    Interns (Emit.internLocal name type) := by
  cases name with
  | none => exact interns_pure ()
  | some name => exact (interns_text name).discard.bind fun _ => (interns_text _).discard

theorem interns_loadInstruction (value : Value) : Interns (Emit.loadInstruction value) := by
  have one : ∀ (c : Constant) (op : Opcode) (width : Int16),
      Interns (do return Instruction.constant op (← constant c) width) :=
    fun c _ _ => (interns_constant c).bind fun _ => interns_pure _
  cases value with
  | string s => exact (interns_string s).bind fun _ => interns_pure _
  | cls r => exact (interns_cls r).bind fun _ => interns_pure _
  | int n | long n | float bits | double bits =>
      unfold Emit.loadInstruction
      dsimp only
      repeat' split
      all_goals first | exact interns_pure _ | exact one _ _ _

end Interning

end JvmAssembly
