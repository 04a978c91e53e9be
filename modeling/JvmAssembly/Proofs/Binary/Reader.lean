import Mathlib
import JvmAssembly.Binary.Reader
import JvmAssembly.Proofs.Binary
import JvmAssembly.Proofs.Outcome

/-!
What a reader accepts. A reader is described by a relation between values and their spellings: it
reads every spelling, whatever comes behind, and what it takes off the input is always a spelling
of the value that it makes. Descriptions of readers in a row, and of counted sequences, come from
those of their parts, and so does what they can fail with.
-/
namespace JvmAssembly

variable {α β : Type}

/-- The reader takes these bytes and makes a value of them, whatever comes behind. -/
def Reader.Reads (read : Reader α) (bytes : Bytes) (a : α) : Prop :=
  ∀ position rest, read ⟨position, bytes ++ rest⟩ = .ok (a, ⟨position + bytes.length, rest⟩)

/-- The reader takes exactly the spellings of its values. -/
structure Reader.Accepts (read : Reader α) (form : Bytes → α → Prop) : Prop where
  reads {bytes : Bytes} {a : α} (spelled : form bytes a) : read.Reads bytes a
  reveals {c c' : Cursor} {a : α} (read : read c = .ok (a, c')) :
    ∃ bytes, form bytes a ∧ c.rest = bytes ++ c'.rest

/-- A sequence behind its count, spelled item by item. -/
def Counted (form : Bytes → α → Prop) (bytes : Bytes) (items : List α) : Prop :=
  items.length ≤ 65535 ∧
    ∃ parts, List.Forall₂ form parts items ∧
      bytes = be16 (UInt16.ofNat items.length) ++ parts.flatten

theorem writeCounted_eq_ok {write : α → Except Fault Bytes} {items : List α} {bytes : Bytes} :
    writeCounted write items = .ok bytes ↔
      Counted (fun part a => write a = .ok part) bytes items := by
  unfold writeCounted Counted
  by_cases short : items.length ≤ 65535
  · simp only [short, if_true, true_and]
    constructor
    · intro written
      cases each : items.mapM write with
      | error fault => rw [each] at written; cases written
      | ok parts =>
          rw [each] at written
          cases written
          exact ⟨parts, List.forall₂_iff_get.mpr (by
            have pointwise := List.forall₂_iff_get.mp (mapM_eq_ok.mp each)
            exact ⟨pointwise.1.symm, fun i h h' => pointwise.2 i h' h⟩), rfl⟩
    · rintro ⟨parts, each, rfl⟩
      have all : items.mapM write = .ok parts := mapM_eq_ok.mpr each.flip
      rw [all]
  · simp only [short, if_false, false_and, iff_false]
    exact nofun

theorem exists_writeCounted {write : α → Except Fault Bytes} {items : List α}
    (short : items.length ≤ 65535) (each : ∀ a ∈ items, ∃ part, write a = .ok part) :
    ∃ bytes, writeCounted write items = .ok bytes := by
  obtain ⟨parts, all⟩ := exists_mapM_eq_ok each
  exact ⟨_, writeCounted_eq_ok.mpr ⟨short, parts, (mapM_eq_ok.mp all).flip, rfl⟩⟩

theorem writeCounted_map {write : β → Except Fault Bytes} {write' : α → Except Fault Bytes}
    {g : α → β} {items : List α} (same : ∀ a ∈ items, write (g a) = write' a) :
    writeCounted write (items.map g) = writeCounted write' items := by
  have each : (items.map g).mapM write = items.mapM write' := by
    induction items with
    | nil => rfl
    | cons a items ih =>
        rw [List.forall_mem_cons] at same
        rw [List.map_cons, List.mapM_cons, List.mapM_cons, same.1, ih same.2]
  rw [writeCounted, writeCounted, each, List.length_map]

namespace Reader

theorem bind_eq_ok {read : Reader α} {k : α → Reader β} {c c' : Cursor} {b : β} :
    (read >>= k) c = .ok (b, c') ↔ ∃ a c₁, read c = .ok (a, c₁) ∧ k a c₁ = .ok (b, c') := by
  change (read c >>= fun r => k r.1 r.2) = .ok (b, c') ↔ _
  rw [JvmAssembly.bind_eq_ok]
  exact Prod.exists

theorem ofScan_eq_ok {s : Scan α} {c c' : Cursor} {a : α} :
    ofScan s c = .ok (a, c') ↔ s c = some (a, c') := by
  unfold ofScan
  cases s c with
  | none => exact ⟨nofun, nofun⟩
  | some r => simp only [Except.ok.injEq, Option.some.injEq]

theorem Reads.bind {read : Reader α} {k : α → Reader β} {front back : Bytes} {a : α} {b : β}
    (first : read.Reads front a) (second : (k a).Reads back b) :
    (read >>= k).Reads (front ++ back) b := by
  intro position rest
  refine bind_eq_ok.mpr ⟨a, _, ?_, (second (position + front.length) rest).trans ?_⟩
  · rw [List.append_assoc]
    exact first position (back ++ rest)
  · rw [List.length_append, Nat.add_assoc]

namespace Accepts

variable {read : Reader α} {k : α → Reader β} {f g : Bytes → α → Prop}

theorem congr (accepts : Accepts read f) (same : ∀ bytes a, f bytes a ↔ g bytes a) :
    Accepts read g := by
  have equal : f = g := funext fun bytes => funext fun a => propext (same bytes a)
  rwa [← equal]

/-- No spelling goes on as another. -/
theorem unique (accepts : Accepts read f) {bytes bytes' rest rest' : Bytes} {a a' : α}
    (spelled : f bytes a) (spelled' : f bytes' a') (same : bytes ++ rest = bytes' ++ rest') :
    a = a' ∧ bytes = bytes' ∧ rest = rest' := by
  have one := accepts.reads spelled 0 rest
  have other := accepts.reads spelled' 0 rest'
  rw [same, other] at one
  simp only [Except.ok.injEq, Prod.mk.injEq, Cursor.mk.injEq] at one
  obtain ⟨rfl, _, rfl⟩ := one
  exact ⟨rfl, List.append_cancel_right same, rfl⟩

theorem pure (a : α) : Accepts (Pure.pure a) fun bytes b => bytes = [] ∧ b = a := by
  constructor
  · rintro bytes b ⟨rfl, rfl⟩ position rest
    rfl
  · intro c c' b read
    cases read
    exact ⟨[], ⟨rfl, rfl⟩, rfl⟩

theorem bind {h : α → Bytes → β → Prop} (first : Accepts read f)
    (second : ∀ a, Accepts (k a) (h a)) :
    Accepts (read >>= k) fun bytes b =>
      ∃ a front back, f front a ∧ h a back b ∧ bytes = front ++ back := by
  constructor
  · rintro _ b ⟨a, front, back, spelled, next, rfl⟩
    exact (first.reads spelled).bind ((second a).reads next)
  · intro c c' b read
    obtain ⟨a, c₁, one, two⟩ := bind_eq_ok.mp read
    obtain ⟨front, spelled, taken⟩ := first.reveals one
    obtain ⟨back, next, remains⟩ := (second a).reveals two
    exact ⟨front ++ back, ⟨a, front, back, spelled, next, rfl⟩,
      by rw [taken, remains, List.append_assoc]⟩

/-- What is read is made into something else. -/
theorem map {m : α → β} (accepts : Accepts read f) :
    Accepts (do return m (← read)) fun bytes b => ∃ a, f bytes a ∧ b = m a := by
  refine (accepts.bind fun a => pure (m a)).congr fun bytes b => ?_
  constructor
  · rintro ⟨a, front, back, spelled, ⟨rfl, rfl⟩, rfl⟩
    exact ⟨a, by rwa [List.append_nil], rfl⟩
  · rintro ⟨a, spelled, rfl⟩
    exact ⟨a, bytes, [], spelled, ⟨rfl, rfl⟩, (List.append_nil _).symm⟩

theorem scan {s : Scan α} {spelling : α → Bytes}
    (reads : ∀ position a, Scan.ReadsAt position s (spelling a) a)
    (reveals : Scan.Reveals s spelling) :
    Accepts (ofScan s) fun bytes a => bytes = spelling a := by
  constructor
  · rintro _ a rfl position rest
    exact ofScan_eq_ok.mpr (reads position a rest)
  · intro c c' a read
    exact ⟨_, rfl, reveals (ofScan_eq_ok.mp read)⟩

theorem u8 : Accepts (ofScan Scan.u8) fun bytes b => bytes = [b] :=
  scan (fun _ => .u8) .u8

theorem u16 : Accepts (ofScan Scan.u16) fun bytes w => bytes = be16 w :=
  scan (fun _ => .u16) .u16

theorem u32 : Accepts (ofScan Scan.u32) fun bytes w => bytes = be32 w :=
  scan (fun _ => .u32) .u32

theorem u64 : Accepts (ofScan Scan.u64) fun bytes w => bytes = be64 w :=
  scan (fun _ => .u64) .u64

theorem i32 : Accepts (ofScan Scan.i32) fun bytes n => bytes = be32 n.toUInt32 :=
  scan (fun _ => .i32) .i32

theorem i64 : Accepts (ofScan Scan.i64) fun bytes n => bytes = be64 n.toUInt64 :=
  scan (fun _ => .i64) .i64

theorem take (n : Nat) :
    Accepts (ofScan (Scan.take n)) fun bytes taken => bytes = taken ∧ taken.length = n := by
  constructor
  · rintro bytes _ ⟨rfl, rfl⟩ position rest
    exact ofScan_eq_ok.mpr (Scan.ReadsAt.take bytes rest)
  · intro c c' taken read
    obtain ⟨front, enough⟩ := Scan.Reveals.take n (ofScan_eq_ok.mp read)
    exact ⟨taken, ⟨rfl, enough⟩, front⟩

theorem fail (fault : Fault) : Accepts (Reader.fail fault : Reader α) fun _ _ => False :=
  ⟨nofun, nofun⟩

theorem many_reads (accepts : Accepts read f) {parts : List Bytes} {items : List α}
    (spelled : List.Forall₂ f parts items) (done : Array α) (position : Nat) (rest : Bytes) :
    many read done items.length ⟨position, parts.flatten ++ rest⟩ =
      .ok (done ++ items, ⟨position + parts.flatten.length, rest⟩) := by
  induction spelled generalizing done position with
  | nil => simp [many]
  | cons one _ ih =>
      rw [List.flatten_cons, List.append_assoc, List.length_cons, many, accepts.reads one]
      simp only [ih, List.length_append, Nat.add_assoc, Array.appendList_cons]

theorem many_reveals (accepts : Accepts read f) {n : Nat} {done out : Array α} {c c' : Cursor}
    (ran : many read done n c = .ok (out, c')) :
    ∃ parts items, List.Forall₂ f parts items ∧ items.length = n ∧ out = done ++ items ∧
      c.rest = parts.flatten ++ c'.rest := by
  induction n generalizing done c with
  | zero =>
      cases ran
      exact ⟨[], [], .nil, rfl, Array.appendList_nil.symm, rfl⟩
  | succ n ih =>
      cases one : read c with
      | error fault => rw [many, one] at ran; cases ran
      | ok r =>
          rw [many, one] at ran
          obtain ⟨bytes, spelled, taken⟩ := accepts.reveals one
          obtain ⟨parts, items, each, count, made, remains⟩ := ih ran
          refine ⟨bytes :: parts, r.1 :: items, .cons spelled each, congrArg (· + 1) count, ?_, ?_⟩
          · rw [made, Array.appendList_cons]
          · rw [taken, remains, List.flatten_cons, List.append_assoc]

theorem counted (accepts : Accepts read f) : Accepts (counted read) (Counted f) := by
  constructor
  · rintro _ items ⟨short, parts, spelled, rfl⟩ position rest
    have count : (UInt16.ofNat items.length).toNat = items.length := by
      rw [UInt16.toNat_ofNat']
      exact Nat.mod_eq_of_lt (by omega)
    have size := u16.reads (a := UInt16.ofNat items.length) rfl position (parts.flatten ++ rest)
    have each := many_reads accepts spelled #[] (position + 2) rest
    rw [← List.append_assoc] at size
    rw [← count] at each
    refine bind_eq_ok.mpr ⟨_, _, size, bind_eq_ok.mpr ⟨_, _, each, ?_⟩⟩
    rw [List.length_append, ← Nat.add_assoc, Array.toList_appendList]
    rfl
  · intro c c' items ran
    obtain ⟨n, c₁, size, ran⟩ := bind_eq_ok.mp ran
    obtain ⟨out, c₂, each, last⟩ := bind_eq_ok.mp ran
    cases last
    obtain ⟨_, rfl, taken⟩ := u16.reveals size
    obtain ⟨parts, items, spelled, count, made, remains⟩ := many_reveals accepts each
    have bound := n.toNat_lt
    have same : out.toList = items := by rw [made, Array.toList_appendList, List.nil_append]
    refine ⟨be16 n ++ parts.flatten, same ▸ ⟨by omega, parts, spelled, ?_⟩, ?_⟩
    · rw [count, UInt16.ofNat_toNat]
    · rw [taken, remains, List.append_assoc]

end Accepts

section Fails

variable {kind : Fault → Prop} {read : Reader α} {k : α → Reader β}

/-- Fails with a fault of the kind, if at all, wherever it is run. -/
def Fails (kind : Fault → Prop) (read : Reader α) : Prop := ∀ c, FailsWith kind (read c)

theorem Fails.pure (a : α) : Fails kind (Pure.pure a : Reader α) := fun c => failsWith_ok (a, c)

theorem Fails.fail {fault : Fault} (holds : kind fault) :
    Fails kind (Reader.fail fault : Reader α) := fun _ => failsWith_error holds

theorem Fails.scan (s : Scan α) (holds : kind .endOfInput) : Fails kind (ofScan s) := by
  intro c
  rw [ofScan]
  split
  · exact failsWith_ok _
  · exact failsWith_error holds

theorem Fails.bind (first : Fails kind read) (later : ∀ a, Fails kind (k a)) :
    Fails kind (read >>= k) := fun c => (first c).bind fun r _ => later r.1 r.2

end Fails

end Reader

end JvmAssembly
