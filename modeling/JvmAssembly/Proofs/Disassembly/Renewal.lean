import Mathlib
import JvmAssembly.Proofs.Builder.Emission
import JvmAssembly.Proofs.Draft.Relayout

/-!
Instructions with the labels and locals of another draft in the place of their own, as they come
out of their bytes: a discarded store has become a pop, and the gaps in the table of a switch lead to
its default. Bytes, jumps and the effect on the stack are those of the original.
-/
namespace JvmAssembly

open Encoding

section Switches

variable {cases : List (Int32 × Label)} {default : Label} {table : Bool}

/-- Cases that are sorted already stay as they are. -/
theorem Instruction.sortCases_of_sorted (sorted : cases.Pairwise fun c c' => c.1 < c'.1) :
    sortCases cases = cases := by
  have keep : ∀ (c : Int32 × Label) (cs : List (Int32 × Label)),
      ((c :: cs).Pairwise fun c c' => c.1 < c'.1) → dropRepeats c cs = c :: cs := by
    intro c cs
    induction cs generalizing c with
    | nil => exact fun _ => rfl
    | cons x cs ih =>
        intro sorted
        obtain ⟨first, rest⟩ := List.pairwise_cons.mp sorted
        have apart : (c.1 == x.1) = false :=
          beq_eq_false_iff_ne.mpr (Int32.ne_of_lt (first x List.mem_cons_self))
        rw [dropRepeats, if_neg (by simp [apart]), ih x rest]
  have merged : (cases.mergeSort fun c d => decide (c.1 ≤ d.1)) = cases :=
    List.mergeSort_of_pairwise (sorted.imp fun less => decide_eq_true (Int32.le_of_lt less))
  unfold sortCases
  rw [merged]
  cases cases with
  | nil => rfl
  | cons c cs => exact keep c cs sorted

/-- A switch has the keys of its cases, or all keys from the first to the last. -/
theorem switchKeys_cases (cases : List (Int32 × Label)) (table : Bool) :
    switchKeys cases table = cases.map (·.1) ∨
      table = true ∧ ∃ first last, cases.head? = some first ∧ cases.getLast? = some last ∧
        switchKeys cases table = (List.range (last.1.toInt - first.1.toInt + 1).toNat).map
          fun i : Nat => Int32.ofInt (first.1.toInt + i) := by
  unfold switchKeys
  cases table with
  | false => exact .inl rfl
  | true =>
      generalize cases.head? = head
      generalize cases.getLast? = last
      cases head with
      | none => exact .inl rfl
      | some first =>
          cases last with
          | none => exact .inl rfl
          | some last => exact .inr ⟨rfl, first, last, rfl, rfl, rfl⟩

/-- The keys of a table are words. -/
theorem toInt_tableKey {first last : Int32} {i : Nat}
    (inside : i < (last.toInt - first.toInt + 1).toNat) :
    (Int32.ofInt (first.toInt + i)).toInt = first.toInt + i := by
  have low := Int32.le_toInt first
  have high := Int32.toInt_lt last
  exact Int32.toInt_ofInt_of_le (by omega) (by omega)

theorem pairwise_switchKeys (sorted : cases.Pairwise fun c c' => c.1 < c'.1) (table : Bool) :
    (switchKeys cases table).Pairwise (· < ·) := by
  rcases switchKeys_cases cases table with same | ⟨-, first, last, -, -, same⟩
  · rw [same, List.pairwise_map]
    exact sorted
  · rw [same, List.pairwise_map]
    refine List.Pairwise.imp_of_mem ?_ List.pairwise_lt_range
    intro i j early late less
    rw [Int32.lt_iff_toInt_lt, toInt_tableKey (List.mem_range.mp early),
      toInt_tableKey (List.mem_range.mp late)]
    omega

theorem mem_switchKeys (sorted : cases.Pairwise fun c c' => c.1 < c'.1) {c : Int32 × Label}
    (member : c ∈ cases) (table : Bool) : c.1 ∈ switchKeys cases table := by
  rcases switchKeys_cases cases table with same | ⟨-, first, last, head, tail, same⟩
  · rw [same]
    exact List.mem_map_of_mem member
  · have above := head_le sorted head c member
    have below : c.1.toInt ≤ last.1.toInt := by
      obtain ⟨front, rfl⟩ := List.getLast?_eq_some_iff.mp tail
      rcases List.mem_append.mp member with early | only
      · exact Int.le_of_lt (Int32.lt_iff_toInt_lt.mp ((List.pairwise_append.mp sorted).2.2 c early
          last (List.mem_singleton.mpr rfl)))
      · rw [List.mem_singleton.mp only]
    rw [same, List.mem_map]
    refine ⟨(c.1.toInt - first.1.toInt).toNat, List.mem_range.mpr (by omega), ?_⟩
    rw [Int.toNat_of_nonneg (by omega), add_sub_cancel, Int32.ofInt_toInt]

theorem lookup_map {keys : List Int32} {key : Int32} (f : Int32 → Label) (member : key ∈ keys) :
    (keys.map fun k => (k, f k)).lookup key = some (f key) := by
  induction keys with
  | nil => cases member
  | cons k keys ih =>
      rw [List.map_cons, List.lookup_cons]
      by_cases same : key = k
      · rw [same, beq_self_eq_true]
      · rw [beq_eq_false_iff_ne.mpr same]
        exact ih ((List.mem_cons.mp member).resolve_left same)

theorem lookup_mem_targets (key : Int32) :
    (cases.lookup key).getD default ∈ (Instruction.switch default cases table).targets := by
  cases found : cases.lookup key with
  | none => exact List.mem_append_right _ (List.mem_singleton.mpr rfl)
  | some label =>
      obtain ⟨front, back, split, -⟩ := List.lookup_eq_some_iff.mp found
      refine List.mem_append_left _ (List.mem_map.mpr ⟨(key, label), ?_, rfl⟩)
      rw [split]
      exact List.mem_append_right _ List.mem_cons_self

end Switches

namespace Instruction

/-- The instruction in terms of other labels and locals. -/
def renewed (label : Label → Label) (var : Local → Local) : Instruction → Instruction
  | .load v kind => .load (var v) kind
  | .store _ kind true => .simple (if kind.width = 2 then Opcode.pop2 else Opcode.pop)
  | .store v kind false => .store (var v) kind false
  | .increment v amount => .increment (var v) amount
  | .branch op target => .branch op (label target)
  | .switch default cases table =>
    .switch (label default)
      ((switchKeys cases table).map fun key => (key, label ((cases.lookup key).getD default))) table
  | .ret v => .ret (var v)
  | x => x

variable {label : Label → Label} {var : Local → Local} {x : Instruction}

theorem isLabel_renewed : (x.renewed label var).isLabel = x.isLabel := by
  cases x with
  | store v kind discard => cases discard <;> rfl
  | _ => rfl

theorem isSubroutineCall_renewed :
    (x.renewed label var).isSubroutineCall = x.isSubroutineCall := by
  cases x with
  | store v kind discard => cases discard <;> rfl
  | _ => rfl

theorem adjustment_renewed : (x.renewed label var).adjustment = x.adjustment := by
  cases x with
  | store v kind discard =>
      cases discard with
      | false => rfl
      | true => cases kind <;> rfl
  | _ => rfl

theorem fallsThrough_renewed : (x.renewed label var).fallsThrough = x.fallsThrough := by
  cases x with
  | store v kind discard =>
      cases discard with
      | false => rfl
      | true => cases kind <;> rfl
  | _ => rfl

theorem uses_renewed : (x.renewed label var).uses = x.uses.map var := by
  cases x with
  | store v kind discard => cases discard <;> rfl
  | _ => rfl

theorem defines_renewed {w : Local} (written : (x.renewed label var).defines = some w) :
    ∃ v, x.defines = some v ∧ w = var v := by
  cases x with
  | store v kind discard =>
      cases discard with
      | false =>
          cases written
          exact ⟨v, rfl, rfl⟩
      | true => cases written
  | increment v amount =>
      cases written
      exact ⟨v, rfl, rfl⟩
  | _ => cases written

theorem target_of_renewed {target : Label} (member : target ∈ (x.renewed label var).targets) :
    ∃ old ∈ x.targets, target = label old := by
  cases x with
  | store v kind discard => cases discard <;> cases member
  | branch op old =>
      cases List.mem_singleton.mp member
      exact ⟨old, List.mem_singleton.mpr rfl, rfl⟩
  | switch default cases table =>
      rcases List.mem_append.mp member with inside | last
      · rw [List.map_map, List.mem_map] at inside
        obtain ⟨key, -, rfl⟩ := inside
        exact ⟨_, lookup_mem_targets key, rfl⟩
      · cases List.mem_singleton.mp last
        exact ⟨default, List.mem_append_right _ (List.mem_singleton.mpr rfl), rfl⟩
  | _ => cases member

theorem target_renewed {locals : Array LocalInfo} (writable : x.Writable locals) {target : Label}
    (member : target ∈ x.targets) : label target ∈ (x.renewed label var).targets := by
  cases x with
  | branch op old =>
      cases List.mem_singleton.mp member
      exact List.mem_singleton.mpr rfl
  | switch default cases table =>
      rcases List.mem_append.mp member with inside | last
      · obtain ⟨c, among, rfl⟩ := List.mem_map.mp inside
        refine List.mem_append_left _ (List.mem_map.mpr ⟨(c.1, label c.2), ?_, rfl⟩)
        refine List.mem_map.mpr ⟨c.1, mem_switchKeys writable among table, ?_⟩
        rw [lookup_of_mem writable among]
        rfl
      · cases List.mem_singleton.mp last
        exact List.mem_append_right _ (List.mem_singleton.mpr rfl)
  | store v kind discard => cases member
  | _ => cases member

end Instruction

section Bytes

variable {d d' : Draft} {pool : Pool} {offsets offsets' : Offsets} {offset : Nat}
  {label : Label → Label} {var : Local → Local}

theorem jump_renewed {target : Label}
    (same : offsets'.of? (label target).node = offsets.of? target.node) :
    jump offsets' offset (label target) = jump offsets offset target := by
  unfold jump
  rw [same]

theorem head?_tableKeys {first last : Int32} (le : first.toInt ≤ last.toInt) (f : Int32 → Label) :
    (((List.range (last.toInt - first.toInt + 1).toNat).map
        fun i : Nat => Int32.ofInt (first.toInt + i)).map fun key => (key, f key)).head? =
      some (first, f first) := by
  obtain ⟨n, some⟩ : ∃ n, (last.toInt - first.toInt + 1).toNat = n + 1 :=
    ⟨(last.toInt - first.toInt).toNat, by omega⟩
  rw [some, List.range_succ_eq_map, List.map_cons, List.map_cons, List.head?_cons]
  simp

theorem getLast?_tableKeys {first last : Int32} (le : first.toInt ≤ last.toInt)
    (f : Int32 → Label) :
    (((List.range (last.toInt - first.toInt + 1).toNat).map
        fun i : Nat => Int32.ofInt (first.toInt + i)).map fun key => (key, f key)).getLast? =
      some (last, f last) := by
  obtain ⟨n, some⟩ : ∃ n, (last.toInt - first.toInt + 1).toNat = n + 1 :=
    ⟨(last.toInt - first.toInt).toNat, by omega⟩
  have final : first.toInt + n = last.toInt := by omega
  rw [some, List.range_succ, List.map_append, List.map_append, List.map_singleton,
    List.map_singleton, List.getLast?_concat, final, Int32.ofInt_toInt]

/-- A table that leads to the default where it has gaps is one without gaps. -/
theorem switchTable_renewed {default : Label} {cases : List (Int32 × Label)}
    (sorted : cases.Pairwise fun c c' => c.1 < c'.1) {first last : Int32 × Label}
    (found : cases.head? = some first) (ends : cases.getLast? = some last)
    (atDefault : jump offsets' offset (label default) = jump offsets offset default)
    (atKey : ∀ key, jump offsets' offset (label ((cases.lookup key).getD default)) =
      jump offsets offset ((cases.lookup key).getD default)) :
    switchTable offsets' offset (label default)
        ((switchKeys cases true).map fun key => (key, label ((cases.lookup key).getD default)))
        first.1 last.1 =
      switchTable offsets offset default cases first.1 last.1 := by
  have above := head_le sorted found
  have low := Int32.le_toInt first.1
  have high := Int32.toInt_lt last.1
  have keys : switchKeys cases true = (List.range (last.1.toInt - first.1.toInt + 1).toNat).map
      fun i : Nat => Int32.ofInt (first.1.toInt + i) := by
    simp only [switchKeys, found, ends]
  have bound : first.1.toInt + ((last.1.toInt - first.1.toInt + 1).toNat : Int) ≤ 2 ^ 31 := by
    have le := above last (List.mem_of_getLast? ends)
    omega
  have above' : ∀ c ∈ (switchKeys cases true).map fun key =>
      (key, label ((cases.lookup key).getD default)), first.1.toInt ≤ c.1.toInt := by
    intro c member
    rw [keys] at member
    obtain ⟨key, inside, rfl⟩ := List.mem_map.mp member
    obtain ⟨i, within, rfl⟩ := List.mem_map.mp inside
    rw [toInt_tableKey (List.mem_range.mp within)]
    omega
  have old : tableLabels default #[] (last.1.toInt - first.1.toInt + 1).toNat first.1.toInt cases =
      _ := tableLabels_eq sorted low bound above #[]
  have new : tableLabels (label default) #[] (last.1.toInt - first.1.toInt + 1).toNat
      first.1.toInt ((switchKeys cases true).map fun key =>
        (key, label ((cases.lookup key).getD default))) = _ :=
    tableLabels_eq (List.pairwise_map.mpr (pairwise_switchKeys sorted true)) low bound above' #[]
  rw [switchTable, switchTable, old, new, atDefault]
  simp only [List.flatMap_append, List.flatMap_map]
  congr 2
  refine flatMap_congr fun i member => ?_
  rw [lookup_map (fun key => label ((cases.lookup key).getD default))
    (keys ▸ List.mem_map_of_mem member), Option.getD_some, atKey]

/-- With the gaps of its table filled in, a switch has the same bytes. -/
theorem switch_renewed {default : Label} {cases : List (Int32 × Label)} {table : Bool}
    {code : Bytes} (sorted : cases.Pairwise fun c c' => c.1 < c'.1)
    (known : ∀ target ∈ (Instruction.switch default cases table).targets,
      (offsets.of? target.node).isSome = true)
    (same : ∀ target ∈ (Instruction.switch default cases table).targets,
      offsets'.of? (label target).node = offsets.of? target.node)
    (h : Encoding.switch offsets offset default cases table = .bytes code true) :
    Encoding.switch offsets' offset (label default)
      ((switchKeys cases table).map fun key => (key, label ((cases.lookup key).getD default)))
        table = .bytes code true := by
  have atDefault : default ∈ (Instruction.switch default cases table).targets :=
    List.mem_append_right _ (List.mem_singleton.mpr rfl)
  have atKey : ∀ key, jump offsets' offset (label ((cases.lookup key).getD default)) =
      jump offsets offset ((cases.lookup key).getD default) := fun key =>
    jump_renewed (same _ (lookup_mem_targets key))
  have settled : ((offsets'.of? (label default).node).isSome &&
      ((switchKeys cases table).map fun key =>
        (key, label ((cases.lookup key).getD default))).all
          fun c => (offsets'.of? c.2.node).isSome) = true := by
    rw [Bool.and_eq_true, List.all_map, List.all_eq_true, same _ atDefault]
    refine ⟨known _ atDefault, fun key _ => ?_⟩
    have target := @lookup_mem_targets cases default table key
    rw [Function.comp_apply, same _ target]
    exact known _ target
  have list : switchKeys cases table = cases.map (·.1) →
      switchList offsets' offset (label default)
        ((switchKeys cases table).map fun key => (key, label ((cases.lookup key).getD default))) =
      switchList offsets offset default cases := by
    intro keys
    have rows : ((cases.map fun c => c.1).flatMap fun key =>
        be32 key.toUInt32 ++ jump offsets' offset (label ((cases.lookup key).getD default))) =
        cases.flatMap fun c => be32 c.1.toUInt32 ++ jump offsets offset c.2 := by
      rw [List.flatMap_map]
      refine flatMap_congr fun c member => ?_
      rw [atKey, lookup_of_mem sorted member, Option.getD_some]
    rw [switchList, switchList, jump_renewed (same _ atDefault), List.flatMap_map, keys, rows,
      List.length_map, List.length_map]
  cases table with
  | false => exact congrArg₂ Encoding.bytes ((list rfl).trans (Encoding.bytes.inj h).1) settled
  | true =>
      cases found : cases.head? with
      | none =>
          cases List.head?_eq_none_iff.mp found
          exact congrArg₂ Encoding.bytes ((list rfl).trans (Encoding.bytes.inj h).1) settled
      | some first =>
          have nonempty : cases ≠ [] := by
            rintro rfl
            cases found
          obtain ⟨last, ends⟩ : ∃ last, cases.getLast? = some last :=
            ⟨_, List.getLast?_eq_some_getLast nonempty⟩
          have le := head_le sorted found last (List.mem_of_getLast? ends)
          have keys : switchKeys cases true =
              (List.range (last.1.toInt - first.1.toInt + 1).toNat).map
                fun i : Nat => Int32.ofInt (first.1.toInt + i) := by
            simp only [switchKeys, found, ends]
          have table := switchTable_renewed sorted found ends
            (jump_renewed (same _ atDefault)) atKey
          unfold Encoding.switch at h ⊢
          simp only [found, ends] at h
          rw [← (Encoding.bytes.inj h).1, ← table]
          have head := head?_tableKeys le fun key => label ((cases.lookup key).getD default)
          have tail := getLast?_tableKeys le fun key => label ((cases.lookup key).getD default)
          rw [← keys] at head tail
          simp only [head, tail]
          exact congrArg₂ Encoding.bytes rfl settled

/-- An instruction has the same bytes in terms of other labels and locals, if these stand at the same
offsets and have the same slots. -/
theorem encode_renewed {locals : Array LocalInfo} {x : Instruction} {code : Bytes}
    (writable : x.Writable locals)
    (h : d.encode pool offsets offset x = .ok (.bytes code true))
    (same : ∀ target ∈ x.targets, offsets'.of? (label target).node = offsets.of? target.node)
    (slots : ∀ v slot, d.slotOf v = .ok slot → d'.slotOf (var v) = .ok slot) :
    d'.encode pool offsets' offset (x.renewed label var) = .ok (.bytes code true) := by
  cases x with
  | load v kind | increment v amount | ret v =>
      obtain ⟨slot, given, bytes⟩ := bind_eq_ok.mp h
      exact bind_eq_ok.mpr ⟨slot, slots v slot given, bytes⟩
  | store v kind discard =>
      cases discard with
      | true => exact h
      | false =>
          obtain ⟨slot, given, bytes⟩ := bind_eq_ok.mp h
          exact bind_eq_ok.mpr ⟨slot, slots v slot given, bytes⟩
  | branch op target =>
      have there := same target (List.mem_singleton.mpr rfl)
      rw [Instruction.renewed, Draft.encode, Encoding.branch, there]
      rw [Draft.encode, Encoding.branch] at h
      cases known : offsets.of? target.node with
      | none =>
          rw [known] at h
          cases Except.ok.inj h
      | some place =>
          rw [known] at h
          dsimp only at h ⊢
          split at h
          · rw [if_pos ‹_›]
            exact h
          · split at h
            · rw [if_neg ‹_›, if_pos ‹_›]
              exact h
            · cases Except.ok.inj h
  | switch default cases table =>
      have known := fun target => @Draft.targets_known d pool offsets offset _ code h target
      exact congrArg Except.ok (switch_renewed writable known same (Except.ok.inj h))
  | _ => exact h

end Bytes

/-- What is decoded of a switch makes the switch again. -/
theorem Instruction.switchOver_renewed {default : Label} {cases : List (Int32 × Label)}
    (sorted : cases.Pairwise fun c c' => c.1 < c'.1) (label : Label → Label)
    (var : Local → Local) :
    switchOver (label default) ((switchKeys cases (prefersTable cases)).map fun key =>
        (key, label ((cases.lookup key).getD default))) =
      (Instruction.switch default cases (prefersTable cases)).renewed label var := by
  have again : prefersTable ((switchKeys cases (prefersTable cases)).map fun key =>
      (key, label ((cases.lookup key).getD default))) = prefersTable cases := by
    rcases switchKeys_cases cases (prefersTable cases) with
      keys | ⟨table, first, last, head, tail, keys⟩
    · rw [keys]
      unfold prefersTable
      simp only [List.head?_map, List.getLast?_map, List.length_map]
      cases cases.head? <;> cases cases.getLast? <;> rfl
    · have le := head_le sorted head last (List.mem_of_getLast? tail)
      rw [keys, table]
      unfold prefersTable
      rw [head?_tableKeys le, getLast?_tableKeys le]
      simp only [List.length_map, List.length_range, decide_eq_true_eq]
      omega
  have sorted' : ((switchKeys cases (prefersTable cases)).map fun key =>
      (key, label ((cases.lookup key).getD default))).Pairwise fun c c' => c.1 < c'.1 :=
    List.pairwise_map.mpr (pairwise_switchKeys sorted _)
  rw [switchOver, sortCases_of_sorted sorted', again]
  rfl

end JvmAssembly
