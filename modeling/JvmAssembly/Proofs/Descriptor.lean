import Mathlib
import JvmAssembly.Fault

/-!
Descriptors and class names read back. The text of a type ends where its reader stops, so types in
a row, as in the descriptor of a method, come apart at the right places.
-/
namespace JvmAssembly

namespace Name

/-- A path has no reserved character in it. -/
theorem not_isReserved_of_mem {fresh : Bool} {cs : List Char}
    (valid : binaryProblem fresh cs = none) {c : Char} (member : c ∈ cs) :
    isReserved c = false := by
  fun_induction binaryProblem fresh cs with
  | case1 => cases member
  | case2 => cases member
  | case3 => cases valid
  | case4 _ slash cs isSlash _ ih =>
      rcases List.mem_cons.mp member with rfl | later
      · rw [eq_of_beq isSlash]
        rfl
      · exact ih valid later
  | case5 => cases valid
  | case6 fresh d cs _ plain ih =>
      rcases List.mem_cons.mp member with rfl | later
      · exact Bool.eq_false_of_not_eq_true plain
      · exact ih valid later

theorem ne_of_mem {fresh : Bool} {cs : List Char} (valid : binaryProblem fresh cs = none)
    {c : Char} (member : c ∈ cs) : c ≠ ';' ∧ c ≠ '[' := by
  have plain := not_isReserved_of_mem valid member
  simp only [isReserved, Bool.or_eq_false_iff, beq_eq_false_iff_ne] at plain
  exact ⟨plain.1.2, plain.2⟩

end Name

theorem BinaryName.ofString_text (n : BinaryName) : ofString n.text = .ok n := by
  unfold ofString
  split
  · rfl
  · rename_i problem found
    rw [n.valid] at found
    cases found

@[simp] theorem BinaryName.ofText_text (n : BinaryName) : ofText n.text = .ok n := by
  rw [ofText, ofString_text]
  rfl

theorem BaseType.ofChar?_toChar (b : BaseType) : ofChar? b.toChar = some b := by
  cases b <;> rfl

namespace Descriptor

theorem brackets_replicate (n k : Nat) {cs : List Char} (stop : cs.head? ≠ some '[') :
    brackets n (List.replicate k '[' ++ cs) = (n + k, cs) := by
  induction k generalizing n with
  | zero =>
      cases cs with
      | nil => rfl
      | cons c cs =>
          have other : (c == '[') = false :=
            beq_eq_false_iff_ne.mpr fun same => stop (by rw [same]; rfl)
          rw [List.replicate_zero, List.nil_append, brackets, if_neg (by rw [other]; simp)]
          rfl
  | succ k ih =>
      rw [List.replicate_succ, List.cons_append, brackets, if_pos (beq_self_eq_true '['), ih,
        Nat.add_assoc, Nat.add_comm 1]

theorem readName_append (n : BinaryName) (rest : List Char) :
    readName (n.text.toList ++ ';' :: rest) = .ok (n, rest) := by
  have inside : ∀ c ∈ n.text.toList, (c != ';') = true := fun c member =>
    bne_iff_ne.mpr (Name.ne_of_mem n.valid member).1
  have back : (n.text.toList ++ ';' :: rest).dropWhile (· != ';') = ';' :: rest := by
    rw [List.dropWhile_append_of_pos inside]
    rfl
  have front : (n.text.toList ++ ';' :: rest).takeWhile (· != ';') = n.text.toList := by
    rw [List.takeWhile_append_of_pos inside, List.takeWhile_cons_of_neg (by decide),
      List.append_nil]
  rw [readName, back, front, String.ofList_toList, BinaryName.ofString_text]

theorem readElement_chars (e : Element) (rest : List Char) :
    readElement (e.chars ++ rest) = .ok (e, rest) := by
  cases e with
  | base b =>
      rw [Element.chars, List.singleton_append, readElement, BaseType.ofChar?_toChar]
  | object n =>
      have noBase : BaseType.ofChar? 'L' = none := rfl
      rw [Element.chars, List.cons_append, List.append_assoc, List.singleton_append, readElement,
        noBase]
      simp only [beq_self_eq_true, if_true, readName_append]

theorem head?_chars (e : Element) (rest : List Char) : (e.chars ++ rest).head? ≠ some '[' := by
  have apart : ∀ {c : Char}, c ≠ '[' → some c ≠ some '[' := fun other same =>
    other (Option.some.inj same)
  cases e with
  | base b => cases b <;> exact apart (by decide)
  | object n => exact apart (by decide)

/-- A type is its element under its brackets. -/
theorem exists_ofElement (t : FieldType) : ∃ n e, t = FieldType.ofElement n e ∧
    t.chars = List.replicate n '[' ++ e.chars := by
  cases t with
  | base b => exact ⟨0, .base b, rfl, rfl⟩
  | ref r =>
      cases r with
      | object n => exact ⟨0, .object n, rfl, rfl⟩
      | array outer e => exact ⟨outer + 1, e, rfl, rfl⟩

theorem readFieldType_chars (t : FieldType) (rest : List Char) :
    readFieldType (t.chars ++ rest) = .ok (t, rest) := by
  obtain ⟨n, e, rfl, spelled⟩ := exists_ofElement t
  rw [spelled, List.append_assoc, readFieldType, brackets_replicate 0 n (head?_chars e rest)]
  simp only [readElement_chars, Nat.zero_add]

theorem exists_chars_cons (t : FieldType) : ∃ c cs, t.chars = c :: cs ∧ c ≠ ')' ∧ c ≠ 'V' := by
  cases t with
  | base b => cases b <;> exact ⟨_, _, rfl, by decide, by decide⟩
  | ref r => cases r <;> exact ⟨_, _, rfl, by decide, by decide⟩

theorem readParameters_chars (done : Array FieldType) (types : List FieldType)
    (rest : List Char) :
    readParameters done (types.flatMap FieldType.chars ++ ')' :: rest) =
      .ok (done.toList ++ types, rest) := by
  induction types generalizing done with
  | nil =>
      rw [List.flatMap_nil, List.nil_append, readParameters, List.append_nil]
  | cons t types ih =>
      obtain ⟨c, cs, spelled, noEnd, -⟩ := exists_chars_cons t
      have read := readFieldType_chars t (types.flatMap FieldType.chars ++ ')' :: rest)
      rw [List.flatMap_cons, List.append_assoc, readParameters]
      · split
        · rename_i found
          cases read.symm.trans found
          rw [ih, Array.toList_push, List.append_assoc, List.singleton_append]
        · rename_i found
          cases read.symm.trans found
      · rw [spelled]
        intro other same
        exact noEnd (List.cons.inj same).1

theorem readReturn_chars (type : Option FieldType) (rest : List Char) :
    readReturn (type.elim ['V'] FieldType.chars ++ rest) = .ok (type, rest) := by
  cases type with
  | none => rfl
  | some t =>
      obtain ⟨c, cs, spelled, -, noVoid⟩ := exists_chars_cons t
      have read := readFieldType_chars t rest
      rw [Option.elim_some, readReturn]
      · simp only [read]
      · rw [spelled]
        intro other same
        exact noVoid (List.cons.inj same).1

theorem readMethod_chars (d : MethodDescriptor) : readMethod d.chars = .ok (d, []) := by
  have read := readReturn_chars d.returnType []
  rw [List.append_nil] at read
  simp only [MethodDescriptor.chars, readMethod, readParameters_chars, List.nil_append, read]

/-- A text that its reader takes whole is read. -/
theorem whole_ofList {α : Type} {read : List Char → Except Stop (α × List Char)} {cs : List Char}
    {a : α} (all : read cs = .ok (a, [])) : whole read (String.ofList cs) = .ok a := by
  rw [whole, String.toList_ofList, all]

end Descriptor

@[simp] theorem FieldType.ofText_render (t : FieldType) : ofText t.render = .ok t := by
  have read := Descriptor.readFieldType_chars t []
  rw [List.append_nil] at read
  rw [ofText, parse, render, Descriptor.whole_ofList read]
  rfl

@[simp] theorem MethodDescriptor.ofText_render (d : MethodDescriptor) : ofText d.render = .ok d := by
  rw [ofText, parse, render, Descriptor.whole_ofList (Descriptor.readMethod_chars d)]
  rfl

@[simp] theorem RefType.ofClassName_className (r : RefType) : ofClassName r.className = .ok r := by
  cases r with
  | object n =>
      have noArray : n.text.toList.head? ≠ some '[' := fun same =>
        (Name.ne_of_mem n.valid (List.mem_of_mem_head? same)).2 rfl
      rw [className, ofClassName, if_neg noArray, BinaryName.ofText_text]
      rfl
  | array outer e =>
      have read : readArray (RefType.array outer e).chars = .ok (.array outer e, []) := by
        have element := Descriptor.readElement_chars e []
        have start := Descriptor.brackets_replicate 0 (outer + 1) (Descriptor.head?_chars e [])
        rw [List.append_nil] at element start
        rw [readArray, chars, start]
        simp only [element, Nat.zero_add, Nat.add_sub_cancel]
      have isArray : (RefType.array outer e).render.toList.head? = some '[' := by
        rw [render, String.toList_ofList]
        rfl
      rw [className, ofClassName, if_pos isArray, render, Descriptor.whole_ofList read]
      · rfl
      · exact nofun

end JvmAssembly
