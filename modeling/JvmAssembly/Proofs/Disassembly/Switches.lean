import Mathlib
import JvmAssembly.Proofs.Disassembly.Renewal

/-!
What a switch does in the code. Cases come in any order, and one that repeats an earlier key is
dead; sorting keeps the first of each key in front, so a key finds the same label before and after.
Both forms of the switch send a key to the offset of that label, and the shorter form is written.
-/
namespace JvmAssembly

open Encoding

namespace Instruction

variable {cases : List (Int32 × Label)}

/-- The keys that have a case. -/
def keysOf (cases : List (Int32 × Label)) : Finset Int32 := (cases.map (·.1)).toFinset

theorem lookup_isSome_iff {key : Int32} : (cases.lookup key).isSome = true ↔ key ∈ keysOf cases := by
  rw [keysOf, List.mem_toFinset, ← Option.ne_none_iff_isSome, Ne, List.lookup_eq_none_iff]
  simp only [List.mem_map, bne_iff_ne, not_forall, not_not, exists_prop]
  exact exists_congr fun c => and_congr_right fun _ => eq_comm

/-- The first of neighbours that share a key is the one that a key finds. -/
theorem lookup_dropRepeats (c : Int32 × Label) (cs : List (Int32 × Label)) (key : Int32) :
    (dropRepeats c cs).lookup key = (c :: cs).lookup key := by
  induction cs generalizing c with
  | nil => rfl
  | cons x cs ih =>
      rw [dropRepeats]
      split
      · rename_i same
        rw [ih, List.lookup_cons, List.lookup_cons, List.lookup_cons, beq_iff_eq.mp same]
        cases key == x.1 <;> rfl
      · rw [List.lookup_cons, ih]
        rfl

theorem lookup_mergeSort (cases : List (Int32 × Label)) (key : Int32) :
    (cases.mergeSort fun c d => decide (c.1 ≤ d.1)).lookup key = cases.lookup key := by
  induction cases with
  | nil => rw [List.mergeSort_nil]
  | cons c cs ih =>
      -- The first case comes behind smaller keys only.
      obtain ⟨front, back, whole, rest, less⟩ := List.mergeSort_cons key_trans key_total c cs
      rw [whole, List.lookup_append, List.lookup_cons, List.lookup_cons, ← ih, rest,
        List.lookup_append]
      by_cases same : key = c.1
      · subst same
        have absent : front.lookup c.1 = none := by
          rw [List.lookup_eq_none_iff]
          intro b member
          have above := less b member
          rw [Bool.not_eq_true', decide_eq_false_iff_not] at above
          exact bne_iff_ne.mpr fun same => above (same ▸ Int32.le_refl _)
        rw [absent, beq_self_eq_true]
        rfl
      · rw [beq_eq_false_iff_ne.mpr same]

/-- Every key finds the case that it finds first in the cases as they were given. -/
theorem lookup_sortCases (cases : List (Int32 × Label)) (key : Int32) :
    (sortCases cases).lookup key = cases.lookup key := by
  rw [← lookup_mergeSort cases]
  unfold sortCases
  cases cases.mergeSort fun c d => decide (c.1 ≤ d.1) with
  | nil => rfl
  | cons c cs => exact lookup_dropRepeats c cs key

theorem mem_of_mem_sortCases {c : Int32 × Label} (member : c ∈ sortCases cases) : c ∈ cases := by
  have found := lookup_of_mem (pairwise_sortCases cases) member
  rw [lookup_sortCases] at found
  obtain ⟨front, back, rfl, -⟩ := List.lookup_eq_some_iff.mp found
  exact List.mem_append_right _ List.mem_cons_self

theorem keysOf_sortCases (cases : List (Int32 × Label)) : keysOf (sortCases cases) = keysOf cases := by
  ext key
  rw [← lookup_isSome_iff, lookup_sortCases, lookup_isSome_iff]

theorem length_sortCases (cases : List (Int32 × Label)) :
    (sortCases cases).length = (keysOf cases).card := by
  have distinct : ((sortCases cases).map (·.1)).Nodup :=
    List.pairwise_map.mpr ((pairwise_sortCases cases).imp Int32.ne_of_lt)
  rw [← keysOf_sortCases, keysOf, List.toFinset_card_of_nodup distinct, List.length_map]

theorem mem_keysOf {c : Int32 × Label} (member : c ∈ cases) : c.1 ∈ keysOf cases :=
  List.mem_toFinset.mpr (List.mem_map_of_mem member)

/-- Cases for more than half of all keys make a table. Those for exactly half of them do too, unless
they go from the first key of all to the last. -/
theorem length_of_not_prefersTable (list : prefersTable cases = false) :
    cases.length ≤ 2 ^ 31 ∧ (cases.length = 2 ^ 31 →
      Int32.minValue ∈ keysOf cases ∧ Int32.maxValue ∈ keysOf cases) := by
  unfold prefersTable at list
  cases head : cases.head? with
  | none =>
      rw [List.head?_eq_none_iff.mp head]
      exact ⟨by decide, fun full => absurd full (by decide)⟩
  | some first =>
      cases tail : cases.getLast? with
      | none =>
          rw [List.getLast?_eq_none_iff.mp tail]
          exact ⟨by decide, fun full => absurd full (by decide)⟩
      | some last =>
          rw [head, tail] at list
          have long := of_decide_eq_false list
          have least := first.1.le_toInt
          have most := last.1.toInt_lt
          refine ⟨by omega, fun full => ?_⟩
          have low : first.1 = Int32.minValue := Int32.toInt_inj.mp (by
            rw [Int32.toInt_minValue]
            omega)
          have high : last.1 = Int32.maxValue := Int32.toInt_inj.mp (by
            rw [Int32.toInt_maxValue]
            omega)
          exact ⟨low ▸ mem_keysOf (List.mem_of_head? head),
            high ▸ mem_keysOf (List.mem_of_getLast? tail)⟩

end Instruction

namespace Encoding

variable {offsets : Offsets} {offset : Nat} {default : Label} {cases : List (Int32 × Label)}

/-- The form that is preferred is not longer than the other. -/
theorem switchWidth_prefersTable (default : Label) (cases : List (Int32 × Label)) (table : Bool) :
    switchWidth default cases (Instruction.prefersTable cases) ≤ switchWidth default cases table := by
  cases head : cases.head? with
  | none =>
      cases List.head?_eq_none_iff.mp head
      cases table <;> exact Nat.le_refl _
  | some first =>
      cases tail : cases.getLast? with
      | none =>
          cases List.getLast?_eq_none_iff.mp tail
          cases table <;> exact Nat.le_refl _
      | some last =>
          have asTable : switchWidth default cases true = _ := switchWidth_table head tail
          have asList := switchWidth_list default cases
          have some := List.length_pos_of_mem (List.mem_of_head? head)
          have compared : Instruction.prefersTable cases = true ↔
              4 * (3 + (last.1.toInt - first.1.toInt + 1)) ≤ 4 * (2 + 2 * (cases.length : Int)) := by
            rw [Instruction.prefersTable, head, tail, decide_eq_true_eq]
          cases form : Instruction.prefersTable cases with
          | true =>
              have shorter := compared.mp form
              cases table with
              | true => exact Nat.le_refl _
              | false =>
                  rw [asTable, asList]
                  omega
          | false =>
              have longer := mt compared.mpr (Bool.not_eq_true _ ▸ form)
              cases table with
              | true =>
                  rw [asTable, asList]
                  omega
              | false => exact Nat.le_refl _

/-- Bytes are settled if every target has an offset. -/
theorem exists_switch (known : ∀ label ∈ cases.map (·.2) ++ [default], InReach offsets offset label)
    (table : Bool) : ∃ code, switch offsets offset default cases table = .bytes code true := by
  have all : ((offsets.of? default.node).isSome &&
      cases.all fun c => (offsets.of? c.2.node).isSome) = true := by
    rw [Bool.and_eq_true, List.all_eq_true]
    constructor
    · obtain ⟨there, -, found, -⟩ := known default (by simp)
      simp [found]
    · intro c member
      obtain ⟨there, -, found, -⟩ := known c.2 (List.mem_append_left _ (List.mem_map_of_mem member))
      simp [found]
  unfold switch
  dsimp only
  rw [all]
  split
  · exact ⟨_, rfl⟩
  · exact ⟨_, rfl⟩

/-- Where a switch with these rows sends a key. -/
def sent (there : Nat) (rows : List (Int32 × Nat)) (key : Int32) : Nat :=
  (rows.lookup key).getD there

theorem SwitchRead.sends {table : Bool} {code : Bytes}
    (sorted : cases.Pairwise fun c c' => c.1 < c'.1)
    (read : SwitchRead offsets offset default cases (switchKeys cases table) code) :
    ∃ there rows, Scan.ReadsAt offset Decoded.read code (.switch there rows) ∧
      ∀ key, offsets.of? ((cases.lookup key).getD default).node = some (sent there rows key) := by
  obtain ⟨there, rows, read, found, keys, targets⟩ := read
  refine ⟨there, rows, read, fun key => ?_⟩
  unfold sent
  cases row : rows.lookup key with
  | some target =>
      obtain ⟨front, back, rfl, -⟩ := List.lookup_eq_some_iff.mp row
      exact targets (key, target) (List.mem_append_right _ List.mem_cons_self)
  | none =>
      have absent : cases.lookup key = none := by
        rw [List.lookup_eq_none_iff] at row ⊢
        intro c member
        have listed := mem_switchKeys sorted member table
        rw [← keys] at listed
        obtain ⟨r, inside, same⟩ := List.mem_map.mp listed
        exact same ▸ row r inside
      rw [absent]
      exact found

end Encoding

open Encoding Instruction

/-- A switch does in the code what its cases say, in whichever form it is written. Wherever it
stands, if its targets have offsets at distances that words can hold, then the bytes that it gets
are decoded, up to their end, to a switch that sends every key to the offset of the first case
given for it, or to that of the default if there is none; and the other form of the same cases
would not be shorter. One switch is not decoded: the number of cases is a signed word, and half of
all keys, from the first key to the last, are one case too many and still shorter than a table. Its
sixteen gigabytes are more than any code may have. -/
theorem Draft.readsAt_switchOver (d : Draft) (pool : Pool) {offsets : Offsets} {offset : Nat}
    {default : Label} {cases : List (Int32 × Label)}
    (known : ∀ label ∈ cases.map (·.2) ++ [default], InReach offsets offset label) :
    ∃ code, d.encode pool offsets offset (switchOver default cases) = .ok (.bytes code true) ∧
      ((∃ there rows, Scan.ReadsAt offset Decoded.read code (.switch there rows) ∧
          ∀ key, offsets.of? ((cases.lookup key).getD default).node = some (sent there rows key)) ∨
        2 ^ 34 < code.length ∧ (keysOf cases).card = 2 ^ 31 ∧
          Int32.minValue ∈ keysOf cases ∧ Int32.maxValue ∈ keysOf cases) ∧
      ∀ table bytes settled,
        Encoding.switch offsets offset default (sortCases cases) table = .bytes bytes settled →
        code.length ≤ bytes.length := by
  have sorted := pairwise_sortCases cases
  have known' : ∀ label ∈ (sortCases cases).map (·.2) ++ [default],
      InReach offsets offset label := by
    intro label member
    apply known
    simp only [List.mem_append, List.mem_map, List.mem_singleton] at member ⊢
    exact member.imp_left fun ⟨c, inside, same⟩ => ⟨c, mem_of_mem_sortCases inside, same⟩
  obtain ⟨code, written⟩ := exists_switch known' (prefersTable (sortCases cases))
  refine ⟨code, congrArg Except.ok written, ?_, ?_⟩
  · by_cases few : prefersTable (sortCases cases) = false → (sortCases cases).length < 2 ^ 31
    · obtain ⟨there, rows, read, sends⟩ := (switch_read sorted known' written few).sends sorted
      refine .inl ⟨there, rows, read, fun key => ?_⟩
      rw [← lookup_sortCases]
      exact sends key
    · rw [Classical.not_imp] at few
      obtain ⟨list, many⟩ := few
      obtain ⟨most, full⟩ := length_of_not_prefersTable list
      have half : (sortCases cases).length = 2 ^ 31 := Nat.le_antisymm most (Nat.not_lt.mp many)
      rw [keysOf_sortCases] at full
      refine .inr ⟨?_, length_sortCases cases ▸ half, full half⟩
      have length := length_switch written
      rw [list, switchWidth_list, half] at length
      omega
  · intro table bytes settled other
    have length := length_switch written
    have length' := length_switch other
    have shorter := switchWidth_prefersTable default (sortCases cases) table
    omega

/-- Cases out of order, for the first and the last of all keys and twice for one between them. -/
def scattered : List (Int32 × Label) :=
  [(5, ⟨0, 1⟩), (Int32.maxValue, ⟨0, 2⟩), (5, ⟨0, 2⟩), (Int32.minValue, ⟨0, 0⟩)]

theorem Draft.readsAt_switchOver_scattered :
    (∀ label ∈ scattered.map (·.2) ++ [⟨0, 3⟩],
      InReach #[some 0, some 70000, some 60, some 9] 6 label) ∧
    ∃ code there rows,
      (Draft.empty 0).encode .empty #[some 0, some 70000, some 60, some 9] 6
        (switchOver ⟨0, 3⟩ scattered) = .ok (.bytes code true) ∧
      Scan.ReadsAt 6 Decoded.read code (.switch there rows) ∧
      sent there rows 5 = 70000 ∧ sent there rows Int32.maxValue = 60 ∧
      sent there rows Int32.minValue = 0 ∧ sent there rows 6 = 9 ∧
      ∀ table bytes settled, Encoding.switch #[some 0, some 70000, some 60, some 9] 6 ⟨0, 3⟩
        (sortCases scattered) table = .bytes bytes settled → code.length ≤ bytes.length := by
  have known : ∀ label ∈ scattered.map (·.2) ++ [⟨0, 3⟩],
      InReach #[some 0, some 70000, some 60, some 9] 6 label := by
    simp only [scattered, List.map_cons, List.map_nil, List.cons_append, List.nil_append,
      List.forall_mem_cons, List.not_mem_nil, false_implies, implies_true, and_true]
    exact ⟨⟨70000, by decide, rfl, by decide, by decide⟩,
      ⟨60, by decide, rfl, by decide, by decide⟩, ⟨60, by decide, rfl, by decide, by decide⟩,
      ⟨0, by decide, rfl, by decide, by decide⟩, ⟨9, by decide, rfl, by decide, by decide⟩⟩
  have few : (keysOf scattered).card = 3 := by decide
  obtain ⟨code, encoded, decoded, shortest⟩ :=
    Draft.readsAt_switchOver (Draft.empty 0) .empty known
  rcases decoded with ⟨there, rows, read, sends⟩ | ⟨-, half, -⟩
  · exact ⟨known, code, there, rows, encoded, read, (Option.some.inj (sends 5)).symm,
      (Option.some.inj (sends Int32.maxValue)).symm, (Option.some.inj (sends Int32.minValue)).symm,
      (Option.some.inj (sends 6)).symm, shortest⟩
  · rw [few] at half
    exact absurd half (by decide)

end JvmAssembly
