import Mathlib
import JvmAssembly.Pool.Format
import JvmAssembly.Proofs.Binary.Reader
import JvmAssembly.Proofs.Pool.Numbering
import JvmAssembly.Proofs.Text.ModifiedUtf8

/-!
The pool as bytes and back. An entry is spelled by its tag and its words; only a text can have
several spellings. The entries that are read have the indices that the table gives them, and
linking them to each other and reading the links as indices again gives the entries as they were.
-/
namespace JvmAssembly

namespace ConstantOf

variable {ρ σ : Type}

/-- Links to other entries, from left to right. -/
def links : ConstantOf ρ → List ρ
  | .utf8 _ | .integer _ | .float _ | .long _ | .double _ => []
  | .classInfo name => [name]
  | .string text => [text]
  | .fieldRef owner member => [owner, member]
  | .methodRef owner member _ => [owner, member]
  | .nameAndType name descriptor => [name, descriptor]
  | .methodHandle _ member => [member]
  | .methodType descriptor => [descriptor]
  | .invokeDynamic _ member => [member]

/-- Two entries that differ in their links only, which are related. -/
inductive Linked (R : ρ → σ → Prop) : ConstantOf ρ → ConstantOf σ → Prop where
  | utf8 (text : String) : Linked R (.utf8 text) (.utf8 text)
  | integer (value : Int32) : Linked R (.integer value) (.integer value)
  | float (bits : UInt32) : Linked R (.float bits) (.float bits)
  | long (value : Int64) : Linked R (.long value) (.long value)
  | double (bits : UInt64) : Linked R (.double bits) (.double bits)
  | classInfo {a b} : R a b → Linked R (.classInfo a) (.classInfo b)
  | string {a b} : R a b → Linked R (.string a) (.string b)
  | fieldRef {a b a' b'} : R a b → R a' b' → Linked R (.fieldRef a a') (.fieldRef b b')
  | methodRef {a b a' b'} (isInterface : Bool) : R a b → R a' b' →
      Linked R (.methodRef a a' isInterface) (.methodRef b b' isInterface)
  | nameAndType {a b a' b'} : R a b → R a' b' → Linked R (.nameAndType a a') (.nameAndType b b')
  | methodHandle {a b} (kind : HandleKind) : R a b →
      Linked R (.methodHandle kind a) (.methodHandle kind b)
  | methodType {a b} : R a b → Linked R (.methodType a) (.methodType b)
  | invokeDynamic {a b} (bootstrap : UInt16) : R a b →
      Linked R (.invokeDynamic bootstrap a) (.invokeDynamic bootstrap b)

theorem mapLinks_eq_ok {f : ρ → Except Fault σ} {c : ConstantOf ρ} {c' : ConstantOf σ} :
    c.mapLinks f = .ok c' ↔ Linked (fun a b => f a = .ok b) c c' := by
  constructor
  · intro mapped
    cases c with
    | utf8 | integer | float | long | double => cases mapped; constructor
    | classInfo | string | methodHandle | methodType | invokeDynamic =>
        obtain ⟨b, one, last⟩ := bind_eq_ok.mp mapped
        cases last
        exact by constructor; exact one
    | fieldRef | methodRef | nameAndType =>
        obtain ⟨b, one, mapped⟩ := bind_eq_ok.mp mapped
        obtain ⟨b', two, last⟩ := bind_eq_ok.mp mapped
        cases last
        exact by constructor <;> assumption
  · intro linked
    cases linked with
    | utf8 | integer | float | long | double => rfl
    | classInfo one | string one | methodHandle _ one | methodType one | invokeDynamic _ one =>
        exact bind_eq_ok.mpr ⟨_, one, rfl⟩
    | fieldRef one two | methodRef _ one two | nameAndType one two =>
        exact bind_eq_ok.mpr ⟨_, one, bind_eq_ok.mpr ⟨_, two, rfl⟩⟩

variable {R : ρ → σ → Prop} {c : ConstantOf ρ} {c' : ConstantOf σ}

theorem Linked.width (linked : Linked R c c') : c'.width = c.width := by
  cases linked <;> rfl

theorem Linked.mono {S : ρ → σ → Prop} (linked : Linked R c c')
    (more : ∀ {a b}, R a b → S a b) : Linked S c c' := by
  cases linked <;> constructor <;> exact more ‹_›

theorem Linked.flip {S : σ → ρ → Prop} (linked : Linked R c c')
    (back : ∀ {a b}, R a b → S b a) : Linked S c' c := by
  cases linked <;> constructor <;> exact back ‹_›

theorem Linked.mem (linked : Linked R c c') {b : σ} (member : b ∈ c'.links) :
    ∃ a ∈ c.links, R a b := by
  cases linked with
  | utf8 | integer | float | long | double => cases member
  | classInfo one | string one | methodHandle _ one | methodType one | invokeDynamic _ one =>
      cases List.mem_singleton.mp member
      exact ⟨_, List.mem_singleton_self _, one⟩
  | fieldRef one two | methodRef _ one two | nameAndType one two =>
      rcases List.mem_pair.mp member with rfl | rfl
      · exact ⟨_, List.mem_cons_self, one⟩
      · exact ⟨_, List.mem_cons_of_mem _ (List.mem_singleton_self _), two⟩

theorem exists_linked (known : ∀ a ∈ c.links, ∃ b, R a b) : ∃ c', Linked R c c' := by
  cases c with
  | utf8 | integer | float | long | double => exact ⟨_, by constructor⟩
  | classInfo a | string a | methodHandle _ a | methodType a | invokeDynamic _ a =>
      obtain ⟨b, one⟩ := known a (List.mem_singleton_self a)
      exact ⟨_, by constructor; exact one⟩
  | fieldRef a a' | methodRef a a' _ | nameAndType a a' =>
      obtain ⟨b, one⟩ := known a List.mem_cons_self
      obtain ⟨b', two⟩ := known a' (List.mem_cons_of_mem _ (List.mem_singleton_self a'))
      exact ⟨_, by constructor; exacts [one, two]⟩

end ConstantOf

/-- An entry as it stands in a file, a text as its bytes. -/
inductive RawEntry where
  | text (block : Bytes)
  | plain (c : RawConstant)

namespace RawEntry

def write : RawEntry → Except Fault Bytes
  | .text block =>
    if block.length ≤ 65535 then .ok (1 :: (be16 (UInt16.ofNat block.length) ++ block))
    else .error (.textTooLong block.length)
  | .plain c => c.write

/-- What the entry says, if its text can be read. -/
def constant : RawEntry → Except ModifiedUtf8.Fault RawConstant
  | .text block => (ModifiedUtf8.decode block).map .utf8
  | .plain c => .ok c

def width : RawEntry → Nat
  | .text _ => 1
  | .plain c => c.width

theorem width_constant {e : RawEntry} {c : RawConstant} (said : e.constant = .ok c) :
    c.width = e.width := by
  cases e with
  | plain c' =>
      cases said
      rfl
  | text block =>
      rw [constant] at said
      cases decoded : ModifiedUtf8.decode block with
      | error fault => rw [decoded] at said; cases said
      | ok s =>
          rw [decoded] at said
          cases said
          rfl

theorem widths_eq {entries : List RawEntry} {cs : List RawConstant}
    (constants : List.Forall₂ (fun e c => constant e = .ok c) entries cs) :
    cs.map (·.width) = entries.map (·.width) := by
  induction constants with
  | nil => rfl
  | cons one _ ih => rw [List.map_cons, List.map_cons, width_constant one, ih]

/-- A text is spelled as it would be written. -/
def Canonical : RawEntry → Prop
  | .text block => ∃ s, ModifiedUtf8.encode s = block
  | .plain _ => True

theorem Canonical.exists_constant {e : RawEntry} (canonical : e.Canonical) :
    ∃ c, e.constant = .ok c ∧ c.write = e.write := by
  cases e with
  | plain c => exact ⟨c, rfl, rfl⟩
  | text block =>
      obtain ⟨s, rfl⟩ := canonical
      refine ⟨.utf8 s, by rw [constant, ModifiedUtf8.decode_encode]; rfl, ?_⟩
      by_cases short : (ModifiedUtf8.encode s).length ≤ 65535
      · simp only [RawConstant.write, write, if_pos short, ConstantOf.tag]
      · simp only [RawConstant.write, write, if_neg short]

end RawEntry

open Reader

namespace HandleKind

theorem ofByte?_toByte (k : HandleKind) : ofByte? k.toByte = some k := by
  cases k <;> decide

theorem toByte_of_ofByte? {b : UInt8} {k : HandleKind} (known : ofByte? b = some k) :
    k.toByte = b := by
  have same := List.find?_some known
  exact beq_iff_eq.mp same

end HandleKind

namespace RawConstant

/-- The spellings of an entry. -/
def Spelled (bytes : Bytes) (c : RawConstant) : Prop :=
  ∃ entry : RawEntry, entry.write = .ok bytes ∧ entry.constant = .ok c

variable {k : UInt8 → Reader RawConstant} {tag : UInt8} {f : Bytes → RawConstant → Prop}

theorem accepts_pair (m : UInt16 → UInt16 → RawConstant) :
    Accepts (do return m (← Scan.u16) (← Scan.u16)) fun bytes c =>
      ∃ a b, bytes = be16 a ++ be16 b ∧ c = m a b := by
  refine (Accepts.u16.bind fun a => Accepts.u16.map (m := m a)).congr fun bytes c => ?_
  constructor
  · rintro ⟨a, _, _, rfl, ⟨b, rfl, rfl⟩, rfl⟩
    exact ⟨a, b, rfl, rfl⟩
  · rintro ⟨a, b, rfl, rfl⟩
    exact ⟨a, _, _, rfl, ⟨b, rfl, rfl⟩, rfl⟩

theorem accepts_text : Accepts (do
      let size ← Scan.u16
      let bytes ← Scan.take size.toNat
      match ModifiedUtf8.decode bytes with
      | .ok text => return .utf8 text
      | .error fault => Reader.fail (.malformed (.badText fault)) : Reader RawConstant)
    fun bytes c => ∃ block s, bytes = be16 (UInt16.ofNat block.length) ++ block ∧
      block.length ≤ 65535 ∧ ModifiedUtf8.decode block = .ok s ∧ c = .utf8 s := by
  have decoding : ∀ block, Accepts (match ModifiedUtf8.decode block with
      | .ok text => return .utf8 text
      | .error fault => Reader.fail (.malformed (.badText fault)) : Reader RawConstant)
      fun bytes c => bytes = [] ∧ ∃ s, ModifiedUtf8.decode block = .ok s ∧ c = .utf8 s := by
    intro block
    cases ModifiedUtf8.decode block with
    | ok s => exact (Accepts.pure _).congr fun bytes c => by simp
    | error fault => exact (Accepts.fail _).congr fun bytes c => by simp
  refine (Accepts.u16.bind fun size => (Accepts.take size.toNat).bind decoding).congr fun bytes c => ?_
  constructor
  · rintro ⟨size, _, _, rfl, ⟨block, _, _, ⟨rfl, count⟩, ⟨rfl, s, decoded, rfl⟩, rfl⟩, rfl⟩
    have bound := size.toNat_lt
    refine ⟨_, s, ?_, by omega, decoded, rfl⟩
    rw [count, UInt16.ofNat_toNat, List.append_nil]
  · rintro ⟨block, s, rfl, short, decoded, rfl⟩
    have count : (UInt16.ofNat block.length).toNat = block.length := by
      rw [UInt16.toNat_ofNat']
      exact Nat.mod_eq_of_lt (by omega)
    exact ⟨_, _, block, rfl, ⟨block, block, [], ⟨rfl, count.symm⟩, ⟨rfl, s, decoded, rfl⟩,
      (List.append_nil _).symm⟩, rfl⟩

theorem accepts_handle : Accepts (do
      let kind ← Scan.u8
      match HandleKind.ofByte? kind with
      | some kind => return .methodHandle kind (← Scan.u16)
      | none => Reader.fail (.malformed (.unknownHandleKind kind)) : Reader RawConstant)
    fun bytes c => ∃ kind member, bytes = HandleKind.toByte kind :: be16 member ∧
      c = .methodHandle kind member := by
  have known : ∀ b, Accepts (match HandleKind.ofByte? b with
      | some kind => do return .methodHandle kind (← Scan.u16)
      | none => Reader.fail (.malformed (.unknownHandleKind b)) : Reader RawConstant)
      fun bytes c => ∃ kind member, HandleKind.ofByte? b = some kind ∧ bytes = be16 member ∧
        c = .methodHandle kind member := by
    intro b
    cases HandleKind.ofByte? b with
    | some kind => exact Accepts.u16.map.congr fun bytes c => by simp
    | none => exact (Accepts.fail _).congr fun bytes c => by simp
  refine (Accepts.u8.bind known).congr fun bytes c => ?_
  constructor
  · rintro ⟨b, _, _, rfl, ⟨kind, member, found, rfl, rfl⟩, rfl⟩
    exact ⟨kind, member, by rw [HandleKind.toByte_of_ofByte? found]; rfl, rfl⟩
  · rintro ⟨kind, member, rfl, rfl⟩
    exact ⟨kind.toByte, _, _, rfl, ⟨kind, member, kind.ofByte?_toByte, rfl, rfl⟩, rfl⟩

theorem reads_tagged (body : Accepts (k tag) f) {bytes : Bytes} {c : RawConstant}
    (spelled : f bytes c) : (ofScan Scan.u8 >>= k).Reads (tag :: bytes) c :=
  (Accepts.u8.reads rfl).bind (body.reads spelled)

theorem reads_text {block : Bytes} {s : String} (short : block.length ≤ 65535)
    (decoded : ModifiedUtf8.decode block = .ok s) :
    read.Reads (1 :: (be16 (UInt16.ofNat block.length) ++ block)) (.utf8 s) :=
  reads_tagged accepts_text ⟨block, s, rfl, short, decoded, rfl⟩

theorem reads_written {c : RawConstant} {bytes : Bytes} (written : c.write = .ok bytes) :
    read.Reads bytes c := by
  cases c with
  | utf8 s =>
      simp only [write, ConstantOf.tag] at written
      by_cases short : (ModifiedUtf8.encode s).length ≤ 65535
      · rw [if_pos short] at written
        cases written
        exact reads_text short (ModifiedUtf8.decode_encode s)
      · rw [if_neg short] at written
        cases written
  | integer v =>
      cases written
      exact reads_tagged Accepts.i32.map ⟨v, rfl, rfl⟩
  | float v =>
      cases written
      exact reads_tagged Accepts.u32.map ⟨v, rfl, rfl⟩
  | long v =>
      cases written
      exact reads_tagged Accepts.i64.map ⟨v, rfl, rfl⟩
  | double v =>
      cases written
      exact reads_tagged Accepts.u64.map ⟨v, rfl, rfl⟩
  | classInfo a | string a | methodType a =>
      cases written
      exact reads_tagged Accepts.u16.map ⟨a, rfl, rfl⟩
  | fieldRef a b | nameAndType a b | invokeDynamic a b =>
      cases written
      exact reads_tagged (accepts_pair _) ⟨a, b, rfl, rfl⟩
  | methodRef a b isInterface =>
      cases isInterface with
      | false | true =>
          cases written
          exact reads_tagged (accepts_pair _) ⟨a, b, rfl, rfl⟩
  | methodHandle kind a =>
      cases written
      exact reads_tagged accepts_handle ⟨kind, a, rfl, rfl⟩

theorem spelled_of_read {c c' : Cursor} {a : RawConstant} (ran : read c = .ok (a, c')) :
    ∃ bytes, Spelled bytes a ∧ c.rest = bytes ++ c'.rest := by
  obtain ⟨tag, c₁, first, body⟩ := Reader.bind_eq_ok.mp ran
  obtain ⟨_, rfl, taken⟩ := Accepts.u8.reveals first
  have plain : ∀ (tag' : UInt8) {bytes}, tag.toNat = tag'.toNat → a.write = .ok (tag' :: bytes) →
      c₁.rest = bytes ++ c'.rest → ∃ bytes, Spelled bytes a ∧ c.rest = bytes ++ c'.rest := by
    intro tag' bytes same written remains
    cases UInt8.toNat_inj.mp same
    exact ⟨tag :: bytes, ⟨.plain a, written, rfl⟩, by rw [taken, remains]; rfl⟩
  generalize value : tag.toNat = n at body
  split at body
  · obtain ⟨_, ⟨block, s, rfl, short, decoded, rfl⟩, remains⟩ := accepts_text.reveals body
    have text : tag = 1 := UInt8.toNat_inj.mp value
    refine ⟨_, ⟨.text block, if_pos short, ?_⟩, by rw [taken, remains, text]; rfl⟩
    rw [RawEntry.constant, decoded]
    rfl
  · obtain ⟨_, ⟨v, rfl, rfl⟩, remains⟩ := Accepts.i32.map.reveals body
    exact plain 3 value rfl remains
  · obtain ⟨_, ⟨v, rfl, rfl⟩, remains⟩ := Accepts.u32.map.reveals body
    exact plain 4 value rfl remains
  · obtain ⟨_, ⟨v, rfl, rfl⟩, remains⟩ := Accepts.i64.map.reveals body
    exact plain 5 value rfl remains
  · obtain ⟨_, ⟨v, rfl, rfl⟩, remains⟩ := Accepts.u64.map.reveals body
    exact plain 6 value rfl remains
  · obtain ⟨_, ⟨w, rfl, rfl⟩, remains⟩ := Accepts.u16.map.reveals body
    exact plain 7 value rfl remains
  · obtain ⟨_, ⟨w, rfl, rfl⟩, remains⟩ := Accepts.u16.map.reveals body
    exact plain 8 value rfl remains
  · obtain ⟨_, ⟨a, b, rfl, rfl⟩, remains⟩ := (accepts_pair _).reveals body
    exact plain 9 value rfl remains
  · obtain ⟨_, ⟨a, b, rfl, rfl⟩, remains⟩ := (accepts_pair _).reveals body
    exact plain 10 value rfl remains
  · obtain ⟨_, ⟨a, b, rfl, rfl⟩, remains⟩ := (accepts_pair _).reveals body
    exact plain 11 value rfl remains
  · obtain ⟨_, ⟨a, b, rfl, rfl⟩, remains⟩ := (accepts_pair _).reveals body
    exact plain 12 value rfl remains
  · obtain ⟨_, ⟨kind, w, rfl, rfl⟩, remains⟩ := accepts_handle.reveals body
    exact plain 15 value rfl remains
  · obtain ⟨_, ⟨w, rfl, rfl⟩, remains⟩ := Accepts.u16.map.reveals body
    exact plain 16 value rfl remains
  · obtain ⟨_, ⟨a, b, rfl, rfl⟩, remains⟩ := (accepts_pair _).reveals body
    exact plain 18 value rfl remains
  · cases body

/-- Only a text can be too long to be written. -/
theorem exists_write {c : RawConstant}
    (short : ∀ s, c = .utf8 s → (ModifiedUtf8.encode s).length ≤ 65535) :
    ∃ bytes, c.write = .ok bytes := by
  cases c with
  | utf8 s =>
      refine ⟨1 :: (be16 (UInt16.ofNat (ModifiedUtf8.encode s).length) ++ ModifiedUtf8.encode s), ?_⟩
      simp only [write, if_pos (short s rfl), ConstantOf.tag]
  | _ => exact ⟨_, rfl⟩

theorem accepts_read : Accepts read Spelled := by
  refine ⟨?_, spelled_of_read⟩
  rintro bytes a ⟨entry, written, said⟩
  cases entry with
  | plain c =>
      cases said
      exact reads_written written
  | text block =>
      simp only [RawEntry.write] at written
      split at written
      · rename_i short
        cases written
        cases decoded : ModifiedUtf8.decode block with
        | error fault => rw [RawEntry.constant, decoded] at said; cases said
        | ok s =>
            rw [RawEntry.constant, decoded] at said
            cases said
            exact reads_text short decoded
      · cases written

end RawConstant

namespace RawPool

/-- The table gives every entry its index. -/
def Laid (raw : RawPool) : Prop :=
  raw.positions.toList = none :: spread (widthAt raw.entries) (List.range raw.entries.size)

theorem size_push (raw : RawPool) (c : RawConstant) :
    (raw.push c).positions.size = raw.positions.size + c.width := by
  rcases c.width_cases with one | two
  · simp [push, one]
  · simp [push, two]

theorem laid_push {raw : RawPool} (laid : raw.Laid) (c : RawConstant) : (raw.push c).Laid := by
  have last : (raw.entries.push c)[raw.entries.size]? = some c := Array.getElem?_push_size
  have older : ∀ i ∈ List.range raw.entries.size,
      widthAt (raw.entries.push c) i = widthAt raw.entries i := by
    intro i member
    have inside := List.mem_range.mp member
    rw [widthAt, widthAt, Array.getElem?_push, if_neg (Nat.ne_of_lt inside)]
  have table : (raw.push c).positions.toList =
      raw.positions.toList ++ some raw.entries.size :: if c.width = 2 then [none] else [] := by
    simp only [push]
    split <;> simp
  rw [Laid, table, laid]
  change _ = none :: spread (widthAt (raw.entries.push c)) (List.range (raw.entries.push c).size)
  rw [Array.size_push, List.range_succ, spread_append, spread_congr older, spread_singleton,
    Pool.widthAt_eq last, List.cons_append]

theorem laid_foldl {raw : RawPool} (laid : raw.Laid) (cs : List RawConstant) :
    (cs.foldl push raw).Laid := by
  induction cs generalizing raw with
  | nil => exact laid
  | cons c cs ih => exact ih (laid_push laid c)

theorem entries_foldl (raw : RawPool) (cs : List RawConstant) :
    (cs.foldl push raw).entries = raw.entries ++ cs := by
  induction cs generalizing raw with
  | nil => exact Array.appendList_nil.symm
  | cons c cs ih => exact (ih (raw.push c)).trans Array.appendList_cons.symm

theorem size_le_foldl (raw : RawPool) (cs : List RawConstant) :
    raw.positions.size + cs.length ≤ (cs.foldl push raw).positions.size := by
  induction cs generalizing raw with
  | nil => exact Nat.le_refl _
  | cons c cs ih =>
      have more := ih (raw.push c)
      have width := c.width_cases
      rw [size_push] at more
      rw [List.length_cons, List.foldl_cons]
      omega

/-- Entries and table determine each other. -/
theorem Laid.eq {raw raw' : RawPool} (laid : raw.Laid) (laid' : raw'.Laid)
    (same : raw.entries = raw'.entries) : raw = raw' := by
  obtain ⟨entries, positions⟩ := raw
  obtain ⟨entries', positions'⟩ := raw'
  cases same
  have table : positions.toList = positions'.toList := laid.trans laid'.symm
  rw [Array.toList_inj.mp table]

def start : RawPool := ⟨#[], #[none]⟩

theorem laid_start : start.Laid := rfl

theorem foldl_start {raw : RawPool} (laid : raw.Laid) : raw.entries.toList.foldl push start = raw := by
  refine (laid_foldl laid_start _).eq laid ?_
  rw [entries_foldl]
  simp [start]

theorem readEntries_reads {count budget : Nat} {raw : RawPool} {parts : List Bytes}
    {cs : List RawConstant} (spelled : List.Forall₂ RawConstant.Spelled parts cs)
    (full : (cs.foldl push raw).positions.size = count) (enough : cs.length ≤ budget)
    (position : Nat) (rest : Bytes) :
    readEntries count raw budget ⟨position, parts.flatten ++ rest⟩ =
      .ok (cs.foldl push raw, ⟨position + parts.flatten.length, rest⟩) := by
  induction spelled generalizing raw budget position with
  | nil =>
      cases budget with
      | zero => rfl
      | succ budget =>
          have done : ¬ raw.positions.size < count := Nat.not_lt.mpr (Nat.le_of_eq full.symm)
          rw [readEntries, if_neg done]
          rfl
  | @cons part c parts cs one _ ih =>
      cases budget with
      | zero => cases enough
      | succ budget =>
          have more : raw.positions.size < count := by
            have grown := size_le_foldl raw (c :: cs)
            rw [full, List.length_cons] at grown
            omega
          rw [readEntries, if_pos more, List.flatten_cons, List.append_assoc,
            RawConstant.accepts_read.reads one]
          simp only [ih full (Nat.le_of_succ_le_succ enough), List.length_append, Nat.add_assoc,
            List.foldl_cons]

theorem readEntries_reveals {count budget : Nat} {raw raw' : RawPool} {c c' : Cursor}
    (ran : readEntries count raw budget c = .ok (raw', c')) :
    ∃ parts cs, List.Forall₂ RawConstant.Spelled parts cs ∧ raw' = cs.foldl push raw ∧
      c.rest = parts.flatten ++ c'.rest := by
  induction budget generalizing raw c with
  | zero =>
      cases ran
      exact ⟨[], [], .nil, rfl, rfl⟩
  | succ budget ih =>
      rw [readEntries] at ran
      split at ran
      · cases one : RawConstant.read c with
        | error fault => rw [one] at ran; cases ran
        | ok r =>
            rw [one] at ran
            obtain ⟨part, spelled, taken⟩ := RawConstant.accepts_read.reveals one
            obtain ⟨parts, cs, each, made, remains⟩ := ih ran
            refine ⟨part :: parts, r.1 :: cs, .cons spelled each, made, ?_⟩
            rw [taken, remains, List.flatten_cons, List.append_assoc]
      · cases ran
        exact ⟨[], [], .nil, rfl, rfl⟩

/-- The spellings of a pool. -/
def Spelled (bytes : Bytes) (raw : RawPool) : Prop :=
  raw.Laid ∧ raw.positions.size ≤ 65535 ∧
    ∃ parts, List.Forall₂ RawConstant.Spelled parts raw.entries.toList ∧
      bytes = be16 (UInt16.ofNat raw.positions.size) ++ parts.flatten

theorem accepts_read : Accepts read Spelled := by
  constructor
  · rintro _ raw ⟨laid, short, parts, spelled, rfl⟩ position rest
    have count : (UInt16.ofNat raw.positions.size).toNat = raw.positions.size := by
      rw [UInt16.toNat_ofNat']
      exact Nat.mod_eq_of_lt (by omega)
    have whole := foldl_start laid
    have enough : raw.entries.toList.length ≤ raw.positions.size := by
      have grown := size_le_foldl start raw.entries.toList
      rw [whole] at grown
      exact Nat.le_trans (Nat.le_add_left ..) grown
    have size := Accepts.u16.reads (a := UInt16.ofNat raw.positions.size) rfl position
      (parts.flatten ++ rest)
    have each : readEntries raw.positions.size start raw.positions.size
        ⟨position + 2, parts.flatten ++ rest⟩ = _ :=
      readEntries_reads spelled (congrArg (·.positions.size) whole) enough (position + 2) rest
    rw [← List.append_assoc] at size
    rw [whole] at each
    nth_rewrite 1 2 [← count] at each
    refine Reader.bind_eq_ok.mpr ⟨_, _, size, Reader.bind_eq_ok.mpr ⟨_, _, each, ?_⟩⟩
    rw [if_pos count.symm, List.length_append, ← Nat.add_assoc]
    rfl
  · intro c c' raw ran
    obtain ⟨count, c₁, size, ran⟩ := Reader.bind_eq_ok.mp ran
    obtain ⟨raw₁, c₂, each, last⟩ := Reader.bind_eq_ok.mp ran
    obtain ⟨_, rfl, taken⟩ := Accepts.u16.reveals size
    obtain ⟨parts, cs, spelled, made, remains⟩ := readEntries_reveals each
    split at last
    · rename_i full
      cases last
      have bound := count.toNat_lt
      have laid : raw.Laid := made ▸ laid_foldl laid_start cs
      have entries : raw.entries.toList = cs := by
        rw [made, entries_foldl]
        simp
      refine ⟨be16 count ++ parts.flatten, ⟨laid, by omega, parts, entries ▸ spelled, ?_⟩, ?_⟩
      · rw [full, UInt16.ofNat_toNat]
      · rw [taken, remains, List.append_assoc]
    · cases last

theorem size_of_laid {raw : RawPool} (laid : raw.Laid) :
    raw.positions.size = 1 + (raw.entries.toList.map (·.width)).sum := by
  rw [← Array.length_toList, laid, List.length_cons, length_spread, Pool.map_widthAt_range,
    Nat.add_comm]
  intro i member
  rw [Pool.widthAt_eq (Array.getElem?_eq_getElem (List.mem_range.mp member))]
  exact ConstantOf.width_cases _

/-- The spellings of a pool, entry by entry. -/
theorem spelled_iff {bytes : Bytes} {raw : RawPool} (laid : raw.Laid) :
    Spelled bytes raw ↔ ∃ entries parts,
      List.Forall₂ (fun e part => RawEntry.write e = .ok part) entries parts ∧
      List.Forall₂ (fun e c => RawEntry.constant e = .ok c) entries raw.entries.toList ∧
      1 + (entries.map (·.width)).sum ≤ 65535 ∧
      bytes = be16 (UInt16.ofNat (1 + (entries.map (·.width)).sum)) ++ parts.flatten := by
  have size : ∀ {entries : List RawEntry}, List.Forall₂ (fun e c => e.constant = .ok c) entries
      raw.entries.toList → raw.positions.size = 1 + (entries.map (·.width)).sum := by
    intro entries constants
    rw [size_of_laid laid, RawEntry.widths_eq constants]
  constructor
  · rintro ⟨_, short, parts, spelled, rfl⟩
    obtain ⟨entries, written, constants⟩ := forall₂_exists.mp spelled
    rw [size constants] at short ⊢
    exact ⟨entries, parts, written.flip, constants, short, rfl⟩
  · rintro ⟨entries, parts, written, constants, short, rfl⟩
    rw [← size constants] at short ⊢
    exact ⟨laid, short, parts, forall₂_exists.mpr ⟨entries, written.flip, constants⟩, rfl⟩

end RawPool

end JvmAssembly
