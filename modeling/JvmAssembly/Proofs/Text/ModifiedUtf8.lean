import Mathlib
import JvmAssembly.Text.ModifiedUtf8

/-!
Texts and their bytes. Bytes can be read exactly if they are groups in a row, and where each group
ends is seen from its first byte. The units of a character pair up to that character again, whatever
comes behind them, so every text reads back. Other bytes read as the same text if a group is longer
than it has to be, and a surrogate that stands alone is lost.
-/
namespace JvmAssembly

namespace ModifiedUtf8

/-- A group of bytes that stands for a unit: the bits that are free in it. -/
inductive ByteGroup where
  | one (x : BitVec 7)
  | two (x : BitVec 5) (y : BitVec 6)
  | three (x : BitVec 4) (y z : BitVec 6)
deriving DecidableEq

namespace ByteGroup

def bytes : ByteGroup → Bytes
  | .one x => [.ofBitVec (0b0#1 ++ x)]
  | .two x y => [.ofBitVec (0b110#3 ++ x), .ofBitVec (0b10#2 ++ y)]
  | .three x y z => [.ofBitVec (0b1110#4 ++ x), .ofBitVec (0b10#2 ++ y), .ofBitVec (0b10#2 ++ z)]

def value : ByteGroup → Nat
  | .one x => x.toNat
  | .two x y => (x ++ y).toNat
  | .three x y z => (x ++ y ++ z).toNat

end ByteGroup

theorem toNat_append {n m : Nat} (x : BitVec n) (y : BitVec m) :
    (x ++ y).toNat = x.toNat * 2 ^ m + y.toNat := by
  rw [BitVec.toNat_append, ← Nat.shiftLeft_add_eq_or_of_lt y.isLt, Nat.shiftLeft_eq]

theorem toNat_one (x : BitVec 7) : (UInt8.ofBitVec (0b0#1 ++ x)).toNat = x.toNat :=
  (toNat_append 0b0#1 x).trans (Nat.zero_add _)

theorem toNat_two (x : BitVec 5) : (UInt8.ofBitVec (0b110#3 ++ x)).toNat = 0xC0 + x.toNat :=
  toNat_append 0b110#3 x

theorem toNat_three (x : BitVec 4) : (UInt8.ofBitVec (0b1110#4 ++ x)).toNat = 0xE0 + x.toNat :=
  toNat_append 0b1110#4 x

theorem toNat_behind (x : BitVec 6) : (UInt8.ofBitVec (0b10#2 ++ x)).toNat = 0x80 + x.toNat :=
  toNat_append 0b10#2 x

theorem continuation_mark (index : Nat) (x : BitVec 6) :
    continuation index (.ofBitVec (0b10#2 ++ x)) = .ok x.toNat := by
  have bound := x.isLt
  have lead : (0x80 + x.toNat) / 0x40 = 2 := by omega
  have bits : (0x80 + x.toNat) % 0x40 = x.toNat := by omega
  rw [continuation, toNat_behind, if_pos lead, bits]

/-- A group reads as its unit. -/
theorem decodeUnits_bytes (index : Nat) (done : Array Nat) (g : ByteGroup) (rest : Bytes) :
    decodeUnits index done (g.bytes ++ rest) =
      decodeUnits (index + g.bytes.length) (done.push g.value) rest := by
  cases g with
  | one x =>
      have short : x.toNat < 0x80 := x.isLt
      simp only [ByteGroup.bytes, ByteGroup.value, List.cons_append, List.nil_append,
        List.length_singleton]
      rw [decodeUnits.eq_def]
      simp only [toNat_one, if_pos short]
  | two x y =>
      have bound := x.isLt
      have long : ¬ 0xC0 + x.toNat < 0x80 := by omega
      have lead : (0xC0 + x.toNat) / 0x20 = 6 := by omega
      have bits : (0xC0 + x.toNat) % 0x20 = x.toNat := by omega
      simp only [ByteGroup.bytes, ByteGroup.value, List.cons_append, List.nil_append,
        List.length_cons, List.length_nil]
      rw [decodeUnits]
      simp only [toNat_two, if_neg long, if_pos lead, continuation_mark, bits, toNat_append]
      rfl
  | three x y z =>
      have bound := x.isLt
      have long : ¬ 0xE0 + x.toNat < 0x80 := by omega
      have longer : ¬ (0xE0 + x.toNat) / 0x20 = 6 := by omega
      have lead : (0xE0 + x.toNat) / 0x10 = 14 := by omega
      have bits : (0xE0 + x.toNat) % 0x10 = x.toNat := by omega
      have unit : (x.toNat * 2 ^ 6 + y.toNat) * 2 ^ 6 + z.toNat =
          x.toNat * 0x1000 + y.toNat * 0x40 + z.toNat := by omega
      simp only [ByteGroup.bytes, ByteGroup.value, List.cons_append, List.nil_append,
        List.length_cons, List.length_nil]
      rw [decodeUnits]
      simp only [toNat_three, if_neg long, if_neg longer, if_pos lead, continuation_mark, bits,
        toNat_append, unit]

/-- A byte with this mark is the mark and the bits behind it. -/
theorem exists_bits {n m : Nat} (mark : BitVec n) (byte : UInt8)
    (same : byte.toNat / 2 ^ m = mark.toNat) :
    ∃ x : BitVec m, byte.toNat = (mark ++ x).toNat ∧ byte.toNat % 2 ^ m = x.toNat := by
  have low : byte.toNat % 2 ^ m = (byte.toBitVec.setWidth m).toNat :=
    (BitVec.toNat_setWidth m byte.toBitVec).symm
  refine ⟨byte.toBitVec.setWidth m, ?_, low⟩
  rw [toNat_append, ← same, ← low, Nat.div_add_mod']

theorem continuation_eq_ok {index : Nat} {byte : UInt8} {n : Nat}
    (read : continuation index byte = .ok n) :
    ∃ x : BitVec 6, byte = .ofBitVec (0b10#2 ++ x) ∧ n = x.toNat := by
  rw [continuation] at read
  split at read
  · rename_i lead
    cases read
    obtain ⟨x, whole, low⟩ := exists_bits (m := 6) 0b10#2 byte lead
    exact ⟨x, UInt8.toNat_inj.mp whole, low⟩
  · cases read

/-- What can be read is made of groups. -/
theorem groups_of_decodeUnits {index : Nat} {done : Array Nat} {b : Bytes} {us : List Nat}
    (read : decodeUnits index done b = .ok us) :
    ∃ gs : List ByteGroup, b = gs.flatMap ByteGroup.bytes ∧
      us = done.toList ++ gs.map ByteGroup.value := by
  have front {done : Array Nat} {b rest : Bytes} {u : Nat} (g : ByteGroup)
      (same : b = g.bytes ++ rest) (unit : u = g.value)
      (behind : ∃ gs : List ByteGroup, rest = gs.flatMap ByteGroup.bytes ∧
        us = (done.push u).toList ++ gs.map ByteGroup.value) :
      ∃ gs : List ByteGroup, b = gs.flatMap ByteGroup.bytes ∧
        us = done.toList ++ gs.map ByteGroup.value := by
    obtain ⟨gs, rfl, made⟩ := behind
    refine ⟨g :: gs, same, ?_⟩
    rw [made, unit, Array.toList_push, List.append_assoc, List.map_cons, List.singleton_append]
  fun_induction decodeUnits index done b with
  | case1 index done =>
      cases read
      exact ⟨[], rfl, (List.append_nil _).symm⟩
  | case2 index done lead rest b short ih =>
      obtain ⟨x, whole, low⟩ := exists_bits (m := 7) 0b0#1 lead (Nat.div_eq_of_lt short)
      cases UInt8.toNat_inj.mp whole
      exact front (.one x) rfl ((Nat.mod_eq_of_lt short).symm.trans low) (ih read)
  | case5 index done lead b long mark second rest n next ih =>
      obtain ⟨x, whole, low⟩ := exists_bits (m := 5) 0b110#3 lead mark
      obtain ⟨y, rfl, rfl⟩ := continuation_eq_ok next
      cases UInt8.toNat_inj.mp whole
      refine front (.two x y) rfl ?_ (ih read)
      rw [ByteGroup.value, toNat_append, ← low]
      rfl
  | case10 index done lead b long longer mark second n next third rest k last ih =>
      obtain ⟨x, whole, low⟩ := exists_bits (m := 4) 0b1110#4 lead mark
      obtain ⟨y, rfl, rfl⟩ := continuation_eq_ok next
      obtain ⟨z, rfl, rfl⟩ := continuation_eq_ok last
      cases UInt8.toNat_inj.mp whole
      refine front (.three x y z) rfl ?_ (ih read)
      rw [ByteGroup.value, toNat_append, toNat_append, ← low]
      omega
  | _ => cases read

theorem decodeUnits_groups (index : Nat) (done : Array Nat) (gs : List ByteGroup) :
    decodeUnits index done (gs.flatMap ByteGroup.bytes) =
      .ok (done.toList ++ gs.map ByteGroup.value) := by
  induction gs generalizing index done with
  | nil => simp [decodeUnits]
  | cons g gs ih =>
      rw [List.flatMap_cons, decodeUnits_bytes, ih]
      simp

/-- Where a group ends can be seen from its first byte. -/
theorem bytes_append_inj {g g' : ByteGroup} {rest rest' : Bytes}
    (same : g.bytes ++ rest = g'.bytes ++ rest') : g = g' ∧ rest = rest' := by
  cases g <;> cases g' <;>
    simp only [ByteGroup.bytes, List.cons_append, List.nil_append, List.cons.injEq,
      ← UInt8.toNat_inj, toNat_one, toNat_two, toNat_three, toNat_behind, Nat.add_left_cancel_iff,
      BitVec.toNat_inj] at same
  case one.one =>
    obtain ⟨rfl, rfl⟩ := same
    exact ⟨rfl, rfl⟩
  case two.two =>
    obtain ⟨rfl, rfl, rfl⟩ := same
    exact ⟨rfl, rfl⟩
  case three.three =>
    obtain ⟨rfl, rfl, rfl, rfl⟩ := same
    exact ⟨rfl, rfl⟩
  -- Groups of different lengths differ in their first bytes.
  all_goals omega

theorem flatMap_bytes_inj {gs gs' : List ByteGroup}
    (same : gs.flatMap ByteGroup.bytes = gs'.flatMap ByteGroup.bytes) : gs = gs' := by
  have filled : ∀ (g : ByteGroup) (rest : Bytes), g.bytes ++ rest ≠ [] := by
    intro g rest
    cases g <;> exact List.cons_ne_nil _ _
  induction gs generalizing gs' with
  | nil =>
      cases gs' with
      | nil => rfl
      | cons g' gs' => exact absurd same.symm (filled g' _)
  | cons g gs ih =>
      cases gs' with
      | nil => exact absurd same (filled g _)
      | cons g' gs' =>
          obtain ⟨rfl, rest⟩ := bytes_append_inj same
          rw [ih rest]

/-- The group of a unit. -/
def ByteGroup.ofUnit (u : Nat) : ByteGroup :=
  if 0 < u ∧ u < 0x80 then .one (.ofNat 7 u)
  else if u < 0x800 then .two (.ofNat 5 (u / 0x40)) (.ofNat 6 u)
  else .three (.ofNat 4 (u / 0x1000)) (.ofNat 6 (u / 0x40)) (.ofNat 6 u)

/-- No shorter group has the value, and the zero byte is avoided. -/
def ByteGroup.Canonical (g : ByteGroup) : Prop :=
  match g with
  | .one x => x ≠ 0#7
  | .two x y => value (.two x y) = 0 ∨ 0x80 ≤ value (.two x y)
  | .three x y z => 0x800 ≤ value (.three x y z)

theorem ofUnit_cases {u : Nat} (small : u < 0x10000) :
    (ByteGroup.ofUnit u).bytes = encodeUnit u ∧ (ByteGroup.ofUnit u).value = u ∧
      (ByteGroup.ofUnit u).Canonical := by
  unfold ByteGroup.ofUnit encodeUnit
  split_ifs <;>
    simp only [ByteGroup.bytes, ByteGroup.value, ByteGroup.Canonical, List.cons.injEq, and_true,
      ← UInt8.toNat_inj, toNat_one, toNat_two, toNat_three, toNat_behind, toNat_append, ne_eq,
      ← BitVec.toNat_inj, BitVec.toNat_ofNat, UInt8.toNat_ofNat']
  all_goals omega

theorem ByteGroup.Canonical.value_inj {g g' : ByteGroup} (canonical : g.Canonical)
    (canonical' : g'.Canonical) (same : g.value = g'.value) : g = g' := by
  cases g <;> cases g' <;>
    simp only [ByteGroup.Canonical, ByteGroup.value, toNat_append, ne_eq, ← BitVec.toNat_inj,
      ByteGroup.one.injEq, ByteGroup.two.injEq, ByteGroup.three.injEq, reduceCtorEq,
      BitVec.toNat_ofNat] at canonical canonical' same ⊢ <;> omega

theorem ByteGroup.value_lt (g : ByteGroup) : g.value < 0x10000 := by
  cases g <;> simp only [ByteGroup.value, toNat_append] <;> omega

theorem zero_mem_bytes {g : ByteGroup} : 0 ∈ g.bytes ↔ g = .one 0#7 := by
  cases g <;>
    simp only [ByteGroup.bytes, List.mem_cons, List.not_mem_nil, or_false, ← UInt8.toNat_inj,
      toNat_one, toNat_two, toNat_three, toNat_behind, UInt8.toNat_zero, ByteGroup.one.injEq,
      reduceCtorEq, ← BitVec.toNat_inj, BitVec.toNat_ofNat, iff_false]
  all_goals omega

theorem canonical_iff {gs : List ByteGroup} : (∀ g ∈ gs, g.Canonical) ↔
    0 ∉ gs.flatMap ByteGroup.bytes ∧
    (∀ x y, .two x y ∈ gs → ¬ (1 ≤ (ByteGroup.two x y).value ∧ (ByteGroup.two x y).value ≤ 0x7F)) ∧
    ∀ x y z, .three x y z ∈ gs → ¬ (ByteGroup.three x y z).value < 0x800 := by
  constructor
  · intro canonical
    refine ⟨?_, ?_, ?_⟩
    · intro zero
      obtain ⟨g, member, within⟩ := List.mem_flatMap.mp zero
      cases zero_mem_bytes.mp within
      exact canonical _ member rfl
    · intro x y member
      have shape := canonical _ member
      unfold ByteGroup.Canonical at shape
      dsimp only at shape
      omega
    · intro x y z member
      exact Nat.not_lt.mpr (canonical _ member)
  · rintro ⟨zero, two, three⟩ g member
    cases g with
    | one x =>
        rintro rfl
        exact zero (List.mem_flatMap.mpr ⟨_, member, zero_mem_bytes.mpr rfl⟩)
    | two x y =>
        have shape := two x y member
        change (ByteGroup.two x y).value = 0 ∨ 0x80 ≤ (ByteGroup.two x y).value
        omega
    | three x y z => exact Nat.not_lt.mp (three x y z member)

/-- A character is no surrogate. -/
theorem scalar (c : Char) : c.toNat < 0xD800 ∨ 0xDFFF < c.toNat ∧ c.toNat < 0x110000 := c.valid

theorem units_lt (c : Char) : ∀ u ∈ units c, u < 0x10000 := by
  intro u member
  have bound := scalar c
  by_cases small : c.toNat < 0x10000
  · rw [units, if_pos small, List.mem_singleton] at member
    omega
  · simp only [units, if_neg small, List.mem_cons, List.not_mem_nil, or_false] at member
    omega

theorem not_surrogate (c : Char) : isHigh c.toNat = false ∧ isLow c.toNat = false := by
  have valid := scalar c
  simp only [isHigh, isLow, Bool.and_eq_false_iff, decide_eq_false_iff_not]
  omega

theorem surrogates {c : Char} (large : ¬ c.toNat < 0x10000) :
    isHigh (0xD800 + (c.toNat - 0x10000) / 0x400) = true ∧
      isLow (0xDC00 + (c.toNat - 0x10000) % 0x400) = true := by
  have bound := scalar c
  simp only [isHigh, isLow, Bool.and_eq_true, decide_eq_true_eq]
  omega

/-- The units of a character pair up to it. -/
theorem pair_units (done : List Char) (c : Char) (rest : List Nat) :
    pair done (units c ++ rest) = pair (c :: done) rest := by
  have bound := scalar c
  by_cases small : c.toNat < 0x10000
  · have plain := not_surrogate c
    rw [units, if_pos small]
    cases rest with
    | nil => simp [pair, plain.1, plain.2]
    | cons v rest => simp [pair, plain.1, plain.2]
  · obtain ⟨high, low⟩ := surrogates small
    have whole : 0x10000 + (0xD800 + (c.toNat - 0x10000) / 0x400 - 0xD800) * 0x400 +
        (0xDC00 + (c.toNat - 0x10000) % 0x400 - 0xDC00) = c.toNat := by omega
    rw [units, if_neg small]
    simp only [List.cons_append, List.nil_append, pair, high, low, if_true, whole,
      Char.ofNat_toNat]

theorem pair_flatMap (done cs : List Char) :
    pair done (cs.flatMap units) = cs.reverse ++ done := by
  induction cs generalizing done with
  | nil => rfl
  | cons c cs ih => rw [List.flatMap_cons, pair_units, ih, List.reverse_cons, List.append_assoc,
      List.singleton_append]

/-- Every surrogate is in a pair of a high one and a low one behind it. -/
def Paired (us : List Nat) : Prop :=
  ∀ i u, us[i]? = some u → isHigh u = true ∨ isLow u = true →
    ∃ j high low, (i = j ∨ i = j + 1) ∧ us[j]? = some high ∧ us[j + 1]? = some low ∧
      isHigh high = true ∧ isLow low = true

theorem not_isLow {u : Nat} (high : isHigh u = true) : isLow u = false := by
  simp only [isHigh, isLow, Bool.and_eq_true, Bool.and_eq_false_iff, decide_eq_true_eq,
    decide_eq_false_iff_not] at high ⊢
  omega

/-- Behind a unit that is not the first of a pair, pairs are as they are in the whole. -/
theorem Paired.behind (front : List Nat) {us : List Nat} {u : Nat}
    (paired : Paired (front ++ u :: us)) (plain : isHigh u = false) : Paired us := by
  have shift : ∀ k, (front ++ u :: us)[front.length + 1 + k]? = us[k]? := by
    intro k
    rw [List.getElem?_append_right (by omega)]
    have there : front.length + 1 + k - front.length = k + 1 := by omega
    rw [there, List.getElem?_cons_succ]
  intro i w here surrogate
  obtain ⟨j, high, low, place, first, second, isHigh, isLow⟩ :=
    paired (front.length + 1 + i) w ((shift i).trans here) surrogate
  by_cases within : front.length + 1 ≤ j
  · obtain ⟨k, rfl⟩ := Nat.exists_eq_add_of_le within
    rw [shift] at first
    rw [Nat.add_assoc, shift] at second
    exact ⟨k, high, low, by omega, first, second, isHigh, isLow⟩
  · -- The pair would begin with the unit itself.
    have last : j = front.length := by omega
    rw [last, List.getElem?_append_right (Nat.le_refl _), Nat.sub_self] at first
    cases first
    rw [plain] at isHigh
    cases isHigh

theorem paired_units (c : Char) {us : List Nat} (paired : Paired us) : Paired (units c ++ us) := by
  have shift : ∀ k, (units c ++ us)[(units c).length + k]? = us[k]? := by
    intro k
    rw [List.getElem?_append_right (Nat.le_add_right _ _), Nat.add_sub_cancel_left]
  intro i u here surrogate
  by_cases within : (units c).length ≤ i
  · obtain ⟨k, rfl⟩ := Nat.exists_eq_add_of_le within
    rw [shift] at here
    obtain ⟨j, high, low, place, first, second, both⟩ := paired k u here surrogate
    refine ⟨(units c).length + j, high, low, by omega, ?_, ?_, both⟩
    · rw [shift, first]
    · rw [Nat.add_assoc, shift, second]
  · by_cases small : c.toNat < 0x10000
    · -- A single unit is no surrogate.
      have alone : units c = [c.toNat] := if_pos small
      rw [alone] at here within
      have start : i = 0 := by simpa using within
      rw [start] at here
      cases here
      rw [(not_surrogate c).1, (not_surrogate c).2] at surrogate
      simp at surrogate
    · have two : (units c).length = 2 := by
        rw [units]
        simp only [if_neg small, List.length_cons, List.length_nil]
      obtain ⟨high, low⟩ := surrogates small
      refine ⟨0, _, _, by omega, ?_, ?_, high, low⟩
      · rw [units, if_neg small]
        rfl
      · rw [units, if_neg small]
        rfl

theorem paired_flatMap (cs : List Char) : Paired (cs.flatMap units) := by
  induction cs with
  | nil => exact fun i u here => by cases here
  | cons c cs ih => exact paired_units c ih

theorem toNat_ofValid {n : Nat} (valid : n.isValidChar) : (Char.ofNat n).toNat = n := by
  rw [Char.toNat_ofNat, if_pos valid]

theorem exists_units_one {u : Nat} (small : u < 0x10000) (high : isHigh u = false)
    (low : isLow u = false) : ∃ c, units c = [u] := by
  simp only [isHigh, isLow, Bool.and_eq_false_iff, decide_eq_false_iff_not] at high low
  have value : (Char.ofNat u).toNat = u := toNat_ofValid (by unfold Nat.isValidChar; omega)
  exact ⟨Char.ofNat u, by rw [units, value, if_pos small]⟩

theorem exists_units_two {u v : Nat} (high : isHigh u = true) (low : isLow v = true) :
    ∃ c, units c = [u, v] := by
  simp only [isHigh, isLow, Bool.and_eq_true, decide_eq_true_eq] at high low
  have value : (Char.ofNat (0x10000 + (u - 0xD800) * 0x400 + (v - 0xDC00))).toNat =
      0x10000 + (u - 0xD800) * 0x400 + (v - 0xDC00) :=
    toNat_ofValid (by unfold Nat.isValidChar; omega)
  refine ⟨Char.ofNat (0x10000 + (u - 0xD800) * 0x400 + (v - 0xDC00)), ?_⟩
  rw [units, value, if_neg (by omega)]
  simp only [List.cons.injEq, and_true]
  omega

/-- Units in pairs are those of a text. -/
theorem Paired.exists_chars {us : List Nat} (paired : Paired us) (small : ∀ u ∈ us, u < 0x10000) :
    ∃ cs : List Char, us = cs.flatMap units := by
  -- A character takes one unit or two, so the induction is on how many are left.
  induction length : us.length using Nat.strong_induction_on generalizing us with
  | _ n ih =>
      cases us with
      | nil => exact ⟨[], rfl⟩
      | cons u us =>
          rw [List.forall_mem_cons] at small
          rw [List.length_cons] at length
          have first : isHigh u = true ∨ isLow u = true →
              isHigh u = true ∧ ∃ v rest, us = v :: rest ∧ isLow v = true := by
            intro surrogate
            obtain ⟨j, high, low, place, here, next, isHigh, isLow⟩ := paired 0 u rfl surrogate
            have start : j = 0 := by omega
            rw [start] at here next
            cases here
            cases us with
            | nil => cases next
            | cons v rest =>
                cases next
                exact ⟨isHigh, _, rest, rfl, isLow⟩
          by_cases surrogate : isHigh u = true ∨ isLow u = true
          · obtain ⟨high, v, rest, rfl, low⟩ := first surrogate
            obtain ⟨c, units⟩ := exists_units_two high low
            have plain : isHigh v = false := by
              by_contra wrong
              rw [not_isLow (Bool.eq_true_of_not_eq_false wrong)] at low
              cases low
            rw [List.forall_mem_cons] at small
            rw [List.length_cons] at length
            obtain ⟨cs, rfl⟩ := ih rest.length (by omega)
              (Paired.behind [u] paired plain) small.2.2 rfl
            exact ⟨c :: cs, by rw [List.flatMap_cons, units]; rfl⟩
          · rw [not_or, Bool.not_eq_true, Bool.not_eq_true] at surrogate
            obtain ⟨c, units⟩ := exists_units_one small.1 surrogate.1 surrogate.2
            obtain ⟨cs, rfl⟩ := ih us.length (by omega)
              (Paired.behind [] paired surrogate.1) small.2 rfl
            exact ⟨c :: cs, by rw [List.flatMap_cons, units]; rfl⟩

theorem values_ofUnit {us : List Nat} (small : ∀ u ∈ us, u < 0x10000) :
    (us.map ByteGroup.ofUnit).map ByteGroup.value = us := by
  rw [List.map_map]
  exact (List.map_congr_left fun u member => (ofUnit_cases (small u member)).2.1).trans
    (List.map_id us)

theorem units_small (s : String) : ∀ u ∈ s.toList.flatMap units, u < 0x10000 := by
  intro u member
  obtain ⟨c, -, within⟩ := List.mem_flatMap.mp member
  exact units_lt c u within

theorem encode_eq_groups (s : String) :
    encode s = ((s.toList.flatMap units).map ByteGroup.ofUnit).flatMap ByteGroup.bytes := by
  rw [encode, List.flatMap_map]
  exact List.flatMap_congr fun u member => (ofUnit_cases (units_small s u member)).1.symm

theorem decode_groups (gs : List ByteGroup) : decode (gs.flatMap ByteGroup.bytes) =
    .ok (String.ofList (pair [] (gs.map ByteGroup.value)).reverse) := by
  rw [decode, decodeUnits_groups]
  rfl

theorem ofList_pair (cs : List Char) :
    String.ofList (pair [] (cs.flatMap units)).reverse = String.ofList cs := by
  rw [pair_flatMap, List.append_nil, List.reverse_reverse]

theorem decode_encode (s : String) : decode (encode s) = .ok s := by
  rw [encode_eq_groups, decode_groups, values_ofUnit (units_small s), ofList_pair,
    String.ofList_toList]

/-- Bytes that can be read are those of the text if their groups are canonical and their surrogates
in pairs. -/
theorem encode_eq_iff {gs : List ByteGroup} {s : String}
    (read : decode (gs.flatMap ByteGroup.bytes) = .ok s) :
    encode s = gs.flatMap ByteGroup.bytes ↔
      (∀ g ∈ gs, g.Canonical) ∧ Paired (gs.map ByteGroup.value) := by
  have small : ∀ u ∈ gs.map ByteGroup.value, u < 0x10000 := by
    intro u member
    obtain ⟨g, -, rfl⟩ := List.mem_map.mp member
    exact g.value_lt
  rw [encode_eq_groups]
  constructor
  · intro same
    cases flatMap_bytes_inj same
    rw [values_ofUnit (units_small s)]
    refine ⟨fun g member => ?_, paired_flatMap s.toList⟩
    obtain ⟨u, within, rfl⟩ := List.mem_map.mp member
    exact (ofUnit_cases (units_small s u within)).2.2
  · rintro ⟨canonical, paired⟩
    obtain ⟨cs, units⟩ := paired.exists_chars small
    rw [decode_groups, units, ofList_pair] at read
    cases read
    rw [String.toList_ofList, ← units, List.map_map]
    congr 1
    refine (List.map_congr_left fun g member => ?_).trans (List.map_id gs)
    obtain ⟨-, value, shape⟩ := ofUnit_cases g.value_lt
    exact shape.value_inj (canonical g member) value

/-- Every text reads back from its bytes, which have no zero among them. Bytes can be read if they
are groups in a row, and they are the bytes of the text that is read if no group is longer than it
has to be, zero takes two bytes, and surrogates are in pairs. -/
theorem decode_exact :
    (∀ s, decode (encode s) = .ok s ∧ 0 ∉ encode s) ∧
    ∀ b, ((∃ s, decode b = .ok s) ↔ ∃ gs : List ByteGroup, gs.flatMap ByteGroup.bytes = b) ∧
      ∀ s, ∀ gs : List ByteGroup, decode b = .ok s → gs.flatMap ByteGroup.bytes = b →
        (encode s = b ↔ 0 ∉ b ∧
          (∀ x y, .two x y ∈ gs →
            ¬ (1 ≤ (ByteGroup.two x y).value ∧ (ByteGroup.two x y).value ≤ 0x7F)) ∧
          (∀ x y z, .three x y z ∈ gs → ¬ (ByteGroup.three x y z).value < 0x800) ∧
          Paired (gs.map ByteGroup.value)) := by
  refine ⟨fun s => ⟨decode_encode s, ?_⟩, fun b => ⟨⟨?_, ?_⟩, ?_⟩⟩
  · rw [encode_eq_groups]
    refine (canonical_iff.mp fun g member => ?_).1
    obtain ⟨u, within, rfl⟩ := List.mem_map.mp member
    exact (ofUnit_cases (units_small s u within)).2.2
  · rintro ⟨s, read⟩
    cases units : decodeUnits 0 #[] b with
    | error fault => rw [decode, units] at read; cases read
    | ok us =>
        obtain ⟨gs, same, -⟩ := groups_of_decodeUnits units
        exact ⟨gs, same.symm⟩
  · rintro ⟨gs, rfl⟩
    exact ⟨_, decode_groups gs⟩
  · rintro s gs read rfl
    rw [encode_eq_iff read, canonical_iff, and_assoc, and_assoc]

/-- A letter in two bytes reads as the letter, which is written in one. -/
theorem decode_exact_overlong : decode [0xC1, 0xA1] = .ok "a" ∧
    [ByteGroup.two 1 0x21].flatMap ByteGroup.bytes = [0xC1, 0xA1] ∧ encode "a" ≠ [0xC1, 0xA1] := by
  have read : decode [0xC1, 0xA1] = .ok "a" := by decide
  have grouped : [ByteGroup.two 1 0x21].flatMap ByteGroup.bytes = [0xC1, 0xA1] := by decide
  refine ⟨read, grouped, fun same => ?_⟩
  have shortest := ((decode_exact.2 _).2 "a" _ read grouped).mp same
  exact shortest.2.1 1 0x21 (List.mem_singleton_self _) (by decide)

end ModifiedUtf8

end JvmAssembly
