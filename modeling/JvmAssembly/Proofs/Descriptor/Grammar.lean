import Mathlib
import JvmAssembly.Proofs.Descriptor

/-!
What the readers of descriptors and class names accept. A reader takes exactly the text of what it
makes, piece by piece, so nothing is read that would not be written the same way. Names are paths
of segments, which is said here without the walk that checks them.
-/
namespace JvmAssembly

namespace Name

/-- No character of the segment is one that paths and descriptors give a meaning of their own. -/
def Plain (segment : List Char) : Prop := ∀ c ∈ segment, c ≠ '/' ∧ c ≠ '.' ∧ c ≠ ';' ∧ c ≠ '['

/-- A sequence of segments between slashes, at least one and none of them empty. -/
def IsPath (text : String) : Prop :=
  ∃ segments : List (List Char), segments ≠ [] ∧ (∀ s ∈ segments, s ≠ [] ∧ Plain s) ∧
    text.toList = ['/'].intercalate segments

theorem isReserved_eq_false {c : Char} : isReserved c = false ↔ c ≠ '.' ∧ c ≠ ';' ∧ c ≠ '[' := by
  simp only [isReserved, Bool.or_eq_false_iff, beq_eq_false_iff_ne, and_assoc]

theorem plain_cons {c : Char} {segment : List Char} :
    Plain (c :: segment) ↔ (c ≠ '/' ∧ isReserved c = false) ∧ Plain segment := by
  rw [Plain, List.forall_mem_cons, isReserved_eq_false]
  rfl

theorem intercalate_cons_cons (first next : List Char) (segments : List (List Char)) :
    ['/'].intercalate (first :: next :: segments) =
      first ++ '/' :: ['/'].intercalate (next :: segments) := by
  simp [List.intercalate]

/-- The walk passes over a segment and then has one under way. -/
theorem binaryProblem_append (fresh : Bool) {segment : List Char} (plain : Plain segment)
    (rest : List Char) :
    binaryProblem fresh (segment ++ rest) = binaryProblem (fresh && segment.isEmpty) rest := by
  induction segment generalizing fresh with
  | nil => rw [List.nil_append, List.isEmpty_nil, Bool.and_true]
  | cons c segment ih =>
      obtain ⟨⟨noSlash, free⟩, plain⟩ := plain_cons.mp plain
      rw [List.cons_append, binaryProblem, if_neg (by simpa using noSlash), if_neg (by simp [free]),
        ih false plain]
      simp

/-- The walk ends well on the rest of a path: the segment under way, which may be over, and more
segments behind slashes. -/
theorem binaryProblem_eq_none {fresh : Bool} {cs : List Char} :
    binaryProblem fresh cs = none ↔ ∃ first segments, (fresh = true → first ≠ []) ∧ Plain first ∧
      (∀ s ∈ segments, s ≠ [] ∧ Plain s) ∧ cs = ['/'].intercalate (first :: segments) := by
  constructor
  · intro well
    fun_induction binaryProblem fresh cs with
    | case1 => cases well
    | case2 =>
        exact ⟨[], [], fun wrong => by simp_all, List.forall_mem_nil _, List.forall_mem_nil _, rfl⟩
    | case3 => cases well
    | case4 fresh slash cs isSlash begun ih =>
        obtain ⟨first, segments, filled, plain, each, rfl⟩ := ih well
        cases eq_of_beq isSlash
        refine ⟨[], first :: segments, fun wrong => absurd wrong begun, List.forall_mem_nil _, ?_,
          ?_⟩
        · exact List.forall_mem_cons.mpr ⟨⟨filled rfl, plain⟩, each⟩
        · rw [intercalate_cons_cons, List.nil_append]
    | case5 => cases well
    | case6 fresh c cs noSlash free ih =>
        obtain ⟨first, segments, -, plain, each, rfl⟩ := ih well
        have usual : c ≠ '/' ∧ isReserved c = false :=
          ⟨by simpa using noSlash, Bool.eq_false_of_not_eq_true free⟩
        refine ⟨c :: first, segments, fun _ => List.cons_ne_nil _ _,
          plain_cons.mpr ⟨usual, plain⟩, each, ?_⟩
        cases segments with
        | nil => simp
        | cons next segments => rw [intercalate_cons_cons, intercalate_cons_cons, List.cons_append]
  · rintro ⟨first, segments, filled, plain, each, rfl⟩
    have begun : (fresh && first.isEmpty) = false := by
      cases fresh with
      | false => rfl
      | true => simpa using filled rfl
    induction segments generalizing fresh first with
    | nil =>
        have walk := binaryProblem_append fresh plain []
        rw [List.append_nil, begun] at walk
        rw [List.intercalate_singleton, walk]
        rfl
    | cons next segments ih =>
        obtain ⟨⟨more, usual⟩, each⟩ := List.forall_mem_cons.mp each
        rw [intercalate_cons_cons, binaryProblem_append fresh plain, begun, binaryProblem,
          if_pos (beq_self_eq_true '/'), if_neg Bool.false_ne_true]
        exact ih next (fun _ => more) usual each (by simpa using more)

theorem isPath_iff {text : String} : IsPath text ↔ binaryProblem true text.toList = none := by
  rw [binaryProblem_eq_none]
  constructor
  · rintro ⟨segments, filled, each, spelled⟩
    cases segments with
    | nil => exact absurd rfl filled
    | cons first segments =>
        obtain ⟨⟨begun, plain⟩, each⟩ := List.forall_mem_cons.mp each
        exact ⟨first, segments, fun _ => begun, plain, each, spelled⟩
  · rintro ⟨first, segments, filled, plain, each, spelled⟩
    exact ⟨first :: segments, List.cons_ne_nil _ _,
      List.forall_mem_cons.mpr ⟨⟨filled rfl, plain⟩, each⟩, spelled⟩

end Name

theorem BinaryName.isPath (n : BinaryName) : Name.IsPath n.text := Name.isPath_iff.mpr n.valid

theorem BinaryName.text_of_ofString {s : String} {n : BinaryName} (made : ofString s = .ok n) :
    n.text = s := by
  unfold ofString at made
  split at made
  · cases made
    rfl
  · cases made

theorem BaseType.toChar_of_ofChar? {c : Char} {b : BaseType} (found : ofChar? c = some b) :
    b.toChar = c := by
  unfold ofChar? at found
  have same := List.find?_some found
  exact eq_of_beq same

namespace Descriptor

variable {cs rest : List Char}

theorem brackets_reveals {n m : Nat} (split : brackets n cs = (m, rest)) :
    ∃ k, m = n + k ∧ cs = List.replicate k '[' ++ rest := by
  induction cs generalizing n with
  | nil =>
      cases split
      exact ⟨0, rfl, rfl⟩
  | cons c cs ih =>
      rw [brackets] at split
      split at split
      · rename_i bracket
        obtain ⟨k, more, rfl⟩ := ih split
        cases eq_of_beq bracket
        exact ⟨k + 1, by omega, rfl⟩
      · cases split
        exact ⟨0, rfl, rfl⟩

theorem readName_reveals {n : BinaryName} (read : readName cs = .ok (n, rest)) :
    cs = n.text.toList ++ ';' :: rest := by
  unfold readName at read
  split at read
  · cases read
  · rename_i semicolon behind found
    split at read
    · rename_i made
      cases read
      have last : semicolon = ';' := by
        have stop := List.head?_dropWhile_not (· != ';') cs
        rw [found] at stop
        simpa using stop
      have whole := List.takeWhile_append_dropWhile (p := (· != ';')) (l := cs)
      rw [found, last] at whole
      rw [BinaryName.text_of_ofString made, String.toList_ofList, whole]
    · cases read

theorem readElement_reveals {e : Element} (read : readElement cs = .ok (e, rest)) :
    cs = e.chars ++ rest := by
  unfold readElement at read
  split at read
  · cases read
  · split at read
    · rename_i found
      cases read
      rw [Element.chars, BaseType.toChar_of_ofChar? found, List.singleton_append]
    · split at read
      · rename_i start
        split at read
        · rename_i named
          cases read
          rw [eq_of_beq start, Element.chars, readName_reveals named, List.cons_append,
            List.append_assoc, List.singleton_append]
        · cases read
      · cases read

theorem chars_ofElement (n : Nat) (e : Element) :
    (FieldType.ofElement n e).chars = List.replicate n '[' ++ e.chars := by
  cases n with
  | zero => cases e <;> rfl
  | succ n => rfl

theorem readFieldType_reveals {t : FieldType} (read : readFieldType cs = .ok (t, rest)) :
    cs = t.chars ++ rest := by
  unfold readFieldType at read
  split at read
  rename_i n behind split
  obtain ⟨k, same, rfl⟩ := brackets_reveals split
  split at read
  · rename_i element
    cases read
    rw [chars_ofElement, readElement_reveals element, List.append_assoc, same, Nat.zero_add]
  · cases read

theorem readParameters_reveals {done : Array FieldType} {types : List FieldType}
    (read : readParameters done cs = .ok (types, rest)) :
    ∃ more, types = done.toList ++ more ∧ cs = more.flatMap FieldType.chars ++ ')' :: rest := by
  fun_induction readParameters done cs with
  | case1 done behind =>
      cases read
      exact ⟨[], (List.append_nil _).symm, rfl⟩
  | case2 done cs inside t behind found shorter ih =>
      obtain ⟨more, rfl, rfl⟩ := ih read
      refine ⟨t :: more, ?_, ?_⟩
      · rw [Array.toList_push, List.append_assoc, List.singleton_append]
      · rw [List.flatMap_cons, List.append_assoc]
        exact readFieldType_reveals found
  | case3 => cases read

theorem readReturn_reveals {type : Option FieldType} (read : readReturn cs = .ok (type, rest)) :
    cs = type.elim ['V'] FieldType.chars ++ rest := by
  unfold readReturn at read
  split at read
  · cases read
    rfl
  · split at read
    · rename_i found
      cases read
      exact readFieldType_reveals found
    · cases read

theorem readMethod_reveals {d : MethodDescriptor} (read : readMethod cs = .ok (d, rest)) :
    cs = d.chars ++ rest := by
  unfold readMethod at read
  split at read
  · split at read
    · cases read
    · rename_i parameters
      split at read
      · cases read
      · rename_i returned
        cases read
        obtain ⟨more, rfl, rfl⟩ := readParameters_reveals parameters
        rw [readReturn_reveals returned, MethodDescriptor.chars]
        simp
  · cases read

theorem readArray_reveals {r : RefType} (start : cs.head? = some '[')
    (read : RefType.readArray cs = .ok (r, rest)) : cs = r.chars ++ rest := by
  unfold RefType.readArray at read
  split at read
  rename_i n behind split
  obtain ⟨k, same, rfl⟩ := brackets_reveals split
  split at read
  · rename_i e behind' element
    cases read
    cases k with
    | zero =>
        -- No element starts with a bracket.
        rw [List.replicate_zero, List.nil_append, readElement_reveals element] at start
        exact absurd start (head?_chars e rest)
    | succ k =>
        have outer : n - 1 = k := by omega
        rw [outer, RefType.chars, readElement_reveals element, List.append_assoc]
  · cases read

theorem whole_eq_ok {α : Type} {read : List Char → Except Stop (α × List Char)} {s : String}
    {a : α} : whole read s = .ok a ↔ read s.toList = .ok (a, []) := by
  constructor
  · intro done
    unfold whole at done
    dsimp only at done
    split at done
    · cases done
      assumption
    · cases done
    · cases done
  · intro all
    rw [whole, all]

end Descriptor

/-- Class names in a type. -/
def Element.names : Element → List BinaryName
  | .base _ => []
  | .object n => [n]

def RefType.names : RefType → List BinaryName
  | .object n => [n]
  | .array _ e => e.names

def FieldType.names : FieldType → List BinaryName
  | .base _ => []
  | .ref r => r.names

def MethodDescriptor.names (d : MethodDescriptor) : List BinaryName :=
  d.parameters.flatMap FieldType.names ++ d.returnType.elim [] FieldType.names

theorem FieldType.parse_eq_ok {s : String} {t : FieldType} : parse s = .ok t ↔ t.render = s := by
  rw [parse, Descriptor.whole_eq_ok]
  constructor
  · intro read
    rw [render, ← String.ofList_toList (s := s), Descriptor.readFieldType_reveals read,
      List.append_nil]
  · rintro rfl
    have read := Descriptor.readFieldType_chars t []
    rwa [List.append_nil, ← String.toList_ofList (l := t.chars)] at read

theorem MethodDescriptor.parse_eq_ok {s : String} {d : MethodDescriptor} :
    parse s = .ok d ↔ d.render = s := by
  rw [parse, Descriptor.whole_eq_ok]
  constructor
  · intro read
    rw [render, ← String.ofList_toList (s := s), Descriptor.readMethod_reveals read,
      List.append_nil]
  · rintro rfl
    rw [render, String.toList_ofList, Descriptor.readMethod_chars]

theorem mapError_eq_ok {α ε ε' : Type} {x : Except ε α} {f : ε → ε'} {a : α} :
    x.mapError f = .ok a ↔ x = .ok a := by
  cases x with
  | error e => simp [Except.mapError]
  | ok b => simp [Except.mapError]

theorem RefType.ofClassName_eq_ok {s : String} {r : RefType} :
    ofClassName s = .ok r ↔ r.className = s := by
  constructor
  · intro made
    unfold ofClassName at made
    split at made
    · rename_i start
      have read := Descriptor.whole_eq_ok.mp (mapError_eq_ok.mp made)
      have spelled := Descriptor.readArray_reveals start read
      cases r with
      | object n =>
          rw [spelled] at start
          cases start
      | array outer e =>
          change (RefType.array outer e).render = s
          rw [render, ← String.ofList_toList (s := s), spelled, List.append_nil]
    · cases named : BinaryName.ofText s with
      | error fault => rw [named] at made; cases made
      | ok n =>
          rw [named] at made
          cases made
          exact BinaryName.text_of_ofString (mapError_eq_ok.mp named)
  · rintro rfl
    exact ofClassName_className r

/-- Names are read if they are paths. Descriptors and class names are read as the types with valid
names in them that are written so, and nothing else is read. -/
theorem descriptors_exact (s : String) :
    (∀ n, BinaryName.ofString s = .ok n ↔ Name.IsPath n.text ∧ n.text = s) ∧
    ((∃ n, BinaryName.ofString s = .ok n) ↔ Name.IsPath s) ∧
    (∀ t, FieldType.parse s = .ok t ↔ (∀ n ∈ t.names, Name.IsPath n.text) ∧ t.render = s) ∧
    (∀ d, MethodDescriptor.parse s = .ok d ↔
      (∀ n ∈ d.names, Name.IsPath n.text) ∧ d.render = s) ∧
    ∀ r, RefType.ofClassName s = .ok r ↔
      (∀ n ∈ r.names, Name.IsPath n.text) ∧ r.className = s := by
  have valid : ∀ names : List BinaryName, ∀ n ∈ names, Name.IsPath n.text := fun _ n _ => n.isPath
  have named : ∀ n, BinaryName.ofString s = .ok n ↔ n.text = s := by
    intro n
    refine ⟨BinaryName.text_of_ofString, ?_⟩
    rintro rfl
    exact n.ofString_text
  refine ⟨fun n => ?_, ⟨?_, ?_⟩, fun t => ?_, fun d => ?_, fun r => ?_⟩
  · rw [named, and_iff_right n.isPath]
  · rintro ⟨n, made⟩
    exact (named n).mp made ▸ n.isPath
  · intro path
    exact ⟨⟨s, Name.isPath_iff.mp path⟩, (named _).mpr rfl⟩
  · rw [FieldType.parse_eq_ok, and_iff_right (valid t.names)]
  · rw [MethodDescriptor.parse_eq_ok, and_iff_right (valid d.names)]
  · rw [RefType.ofClassName_eq_ok, and_iff_right (valid r.names)]

theorem descriptors_exact_nested : Name.IsPath "java/lang/Object" ∧
    FieldType.parse "[[Ljava/lang/Object;" = .ok (.ref (.array 1 (.object .object))) ∧
    MethodDescriptor.parse "([J)V" = .ok ⟨[.ref (.array 0 (.base .long))], none⟩ ∧
    RefType.ofClassName "java/lang/Object" = .ok (.object .object) := by
  have path : Name.IsPath "java/lang/Object" := BinaryName.object.isPath
  have only : ∀ n ∈ [BinaryName.object], Name.IsPath n.text := List.forall_mem_singleton.mpr path
  exact ⟨path, ((descriptors_exact _).2.2.1 _).mpr ⟨only, by decide⟩,
    ((descriptors_exact _).2.2.2.1 _).mpr ⟨List.forall_mem_nil _, by decide⟩,
    ((descriptors_exact _).2.2.2.2 _).mpr ⟨only, rfl⟩⟩

end JvmAssembly
