import Mathlib
import JvmAssembly.Binary.Cursor

/-!
Scans read back the words that were written. A scan that reads a stretch of bytes does so whatever
comes behind them, so that scans in sequence read what was written in sequence.
-/
namespace JvmAssembly

/-- At a position the scan takes exactly these bytes and makes a value of them. -/
def Scan.ReadsAt {α : Type} (position : Nat) (s : Scan α) (bytes : Bytes) (a : α) : Prop :=
  ∀ rest, s ⟨position, bytes ++ rest⟩ = some (a, ⟨position + bytes.length, rest⟩)

namespace Scan.ReadsAt

variable {α β : Type} {position : Nat}

theorem pure (a : α) : Scan.ReadsAt position (Pure.pure a) [] a := fun _ => rfl

theorem bind {s : Scan α} {k : α → Scan β} {front back : Bytes} {a : α} {b : β}
    (hs : Scan.ReadsAt position s front a)
    (hk : Scan.ReadsAt (position + front.length) (k a) back b) :
    Scan.ReadsAt position (s >>= k) (front ++ back) b := by
  intro rest
  have first := hs (back ++ rest)
  have second := hk rest
  rw [List.append_assoc, List.length_append, ← Nat.add_assoc]
  change (s ⟨position, front ++ (back ++ rest)⟩).bind (fun r => k r.1 r.2) = _
  rw [first]
  exact second

/-- What is read is made into something else. -/
theorem map {s : Scan α} {f : α → β} {bytes : Bytes} {a : α}
    (hs : Scan.ReadsAt position s bytes a) :
    Scan.ReadsAt position (do return f (← s)) bytes (f a) := by
  have read := bind (k := fun a => Pure.pure (f a)) hs (pure (f a))
  rwa [List.append_nil] at read

theorem u8 (b : UInt8) : Scan.ReadsAt position Scan.u8 [b] b := fun _ => rfl

theorem i8 (n : Int8) : Scan.ReadsAt position Scan.i8 [n.toUInt8] n := fun _ => rfl

theorem u16 (w : UInt16) : Scan.ReadsAt position Scan.u16 (be16 w) w := by
  have word : UInt16.ofNat ((UInt8.ofNat (w.toNat / 0x100)).toNat * 0x100 +
      (UInt8.ofNat w.toNat).toNat) = w := by
    apply UInt16.toNat_inj.mp
    have bound := w.toNat_lt
    simp only [UInt16.toNat_ofNat', UInt8.toNat_ofNat']
    omega
  intro rest
  change some (UInt16.ofNat ((UInt8.ofNat (w.toNat / 0x100)).toNat * 0x100 +
    (UInt8.ofNat w.toNat).toNat), Cursor.mk (position + 1 + 1) rest) = _
  rw [word]
  rfl

theorem i16 (n : Int16) : Scan.ReadsAt position Scan.i16 (be16 n.toUInt16) n :=
  map (f := UInt16.toInt16) (u16 n.toUInt16)

end Scan.ReadsAt

theorem be32_eq (w : UInt32) :
    be32 w = be16 (UInt16.ofNat (w.toNat / 0x10000)) ++ be16 (UInt16.ofNat w.toNat) := by
  have bound := w.toNat_lt
  simp only [be32, be16, List.cons_append, List.nil_append, List.cons.injEq, and_true,
    ← UInt8.toNat_inj, UInt8.toNat_ofNat', UInt16.toNat_ofNat']
  omega

namespace Scan.ReadsAt

variable {position : Nat}

theorem u32 (w : UInt32) : Scan.ReadsAt position Scan.u32 (be32 w) w := by
  have word : UInt32.ofNat ((UInt16.ofNat (w.toNat / 0x10000)).toNat * 0x10000 +
      (UInt16.ofNat w.toNat).toNat) = w := by
    apply UInt32.toNat_inj.mp
    have bound := w.toNat_lt
    simp only [UInt32.toNat_ofNat', UInt16.toNat_ofNat']
    omega
  rw [be32_eq]
  refine bind (u16 _) ?_
  have low : Scan.ReadsAt (position + 2) _ _ _ := map (f := fun b : UInt16 =>
    UInt32.ofNat ((UInt16.ofNat (w.toNat / 0x10000)).toNat * 0x10000 + b.toNat))
    (u16 (UInt16.ofNat w.toNat))
  rw [word] at low
  exact low

theorem i32 (n : Int32) : Scan.ReadsAt position Scan.i32 (be32 n.toUInt32) n :=
  map (f := UInt32.toInt32) (u32 n.toUInt32)

theorem u64 (w : UInt64) : Scan.ReadsAt position Scan.u64 (be64 w) w := by
  have word : UInt64.ofNat ((UInt32.ofNat (w.toNat / 0x100000000)).toNat * 0x100000000 +
      (UInt32.ofNat w.toNat).toNat) = w := by
    apply UInt64.toNat_inj.mp
    have bound := w.toNat_lt
    simp only [UInt64.toNat_ofNat', UInt32.toNat_ofNat']
    omega
  refine bind (u32 _) ?_
  have low : Scan.ReadsAt (position + 4) _ _ _ := map (f := fun b : UInt32 =>
    UInt64.ofNat ((UInt32.ofNat (w.toNat / 0x100000000)).toNat * 0x100000000 + b.toNat))
    (u32 (UInt32.ofNat w.toNat))
  rw [word] at low
  exact low

theorem i64 (n : Int64) : Scan.ReadsAt position Scan.i64 (be64 n.toUInt64) n :=
  map (f := UInt64.toInt64) (u64 n.toUInt64)

theorem take (bytes : Bytes) : Scan.ReadsAt position (Scan.take bytes.length) bytes bytes := by
  intro rest
  simp only [Scan.take, List.splitAt_eq, List.take_left, List.drop_left, if_true]

end Scan.ReadsAt

/-- What a scan takes off the front of the input is the spelling of what it makes of it. -/
def Scan.Reveals {α : Type} (s : Scan α) (spelling : α → Bytes) : Prop :=
  ∀ ⦃c : Cursor⦄ ⦃a : α⦄ ⦃c' : Cursor⦄, s c = some (a, c') → c.rest = spelling a ++ c'.rest

namespace Scan.Reveals

variable {α β γ : Type}

theorem u8 : Scan.Reveals Scan.u8 fun b => [b] := by
  intro c a c' read
  obtain ⟨position, rest⟩ := c
  cases rest with
  | nil => cases read
  | cons b rest =>
      cases read
      rfl

/-- Two scans in a row make one value of what they read. -/
theorem both {s : Scan α} {t : Scan β} {f : α → β → γ} {front : α → Bytes} {back : β → Bytes}
    {spelling : γ → Bytes} (hs : Scan.Reveals s front) (ht : Scan.Reveals t back)
    (joined : ∀ a b, spelling (f a b) = front a ++ back b) :
    Scan.Reveals (do let a ← s; let b ← t; return f a b) spelling := by
  intro c r c' read
  obtain ⟨⟨a, c₁⟩, first, read⟩ := Option.bind_eq_some_iff.mp read
  obtain ⟨⟨b, c₂⟩, second, last⟩ := Option.bind_eq_some_iff.mp read
  cases last
  rw [hs first, ht second, joined, List.append_assoc]

theorem map {s : Scan α} {f : α → β} {front : α → Bytes} {spelling : β → Bytes}
    (hs : Scan.Reveals s front) (same : ∀ a, spelling (f a) = front a) :
    Scan.Reveals (do return f (← s)) spelling := by
  intro c r c' read
  obtain ⟨⟨a, c₁⟩, first, last⟩ := Option.bind_eq_some_iff.mp read
  cases last
  rw [hs first, same]

theorem u16 : Scan.Reveals Scan.u16 be16 := by
  refine both u8 u8 fun a b => ?_
  have high := a.toNat_lt
  have low := b.toNat_lt
  simp only [be16, List.cons_append, List.nil_append, List.cons.injEq, and_true, ← UInt8.toNat_inj,
    UInt8.toNat_ofNat', UInt16.toNat_ofNat']
  omega

theorem u32 : Scan.Reveals Scan.u32 be32 := by
  refine both u16 u16 fun a b => ?_
  have high := a.toNat_lt
  have low := b.toNat_lt
  rw [be32_eq]
  congr 2 <;> simp only [← UInt16.toNat_inj, UInt16.toNat_ofNat', UInt32.toNat_ofNat'] <;> omega

theorem u64 : Scan.Reveals Scan.u64 be64 := by
  refine both u32 u32 fun a b => ?_
  have high := a.toNat_lt
  have low := b.toNat_lt
  rw [be64]
  congr 2 <;> simp only [← UInt32.toNat_inj, UInt32.toNat_ofNat', UInt64.toNat_ofNat'] <;> omega

theorem i32 : Scan.Reveals Scan.i32 fun n => be32 n.toUInt32 :=
  map (f := UInt32.toInt32) u32 fun _ => rfl

theorem i64 : Scan.Reveals Scan.i64 fun n => be64 n.toUInt64 :=
  map (f := UInt64.toInt64) u64 fun _ => rfl

theorem take (n : Nat) {c c' : Cursor} {bytes : Bytes}
    (read : Scan.take n c = some (bytes, c')) :
    c.rest = bytes ++ c'.rest ∧ bytes.length = n := by
  simp only [Scan.take, List.splitAt_eq] at read
  split at read
  · rename_i enough
    cases read
    exact ⟨(List.take_append_drop n c.rest).symm, enough⟩
  · cases read

end Scan.Reveals

end JvmAssembly
