import Mathlib
import JvmAssembly.Draft.Encoding
import JvmAssembly.Proofs.Disassembly.Format
import JvmAssembly.Proofs.Outcome

/-!
Decoding the bytes of an instruction gives the instruction back. Instructions that the decoder
can tell from their bytes are called writable; for these, what is decoded corresponds to what was
written, with constants as indices, locals as slots and labels as offsets.
-/
namespace JvmAssembly

/-- The keys that a switch has in the code; a table also has those between its cases. -/
def switchKeys (cases : List (Int32 × Label)) (table : Bool) : List Int32 :=
  match table, cases.head?, cases.getLast? with
  | true, some (low, _), some (high, _) =>
    (List.range (high.toInt - low.toInt + 1).toNat).map fun i : Nat => Int32.ofInt (low.toInt + i)
  | _, _, _ => cases.map (·.1)

/-- An instruction as decoded. -/
inductive Corresponds (d : Draft) (pool : Pool) (offsets : Offsets) : Instruction → Decoded → Prop
  | simple (op : Opcode) : Corresponds d pool offsets (.simple op) (.simple op)
  | push {op : Opcode} (value : Int16) (family : op = Opcode.bipush ∨ op = Opcode.sipush) :
      Corresponds d pool offsets (.immediate op value) (.push value)
  | newArray (code : UInt8) :
      Corresponds d pool offsets (.immediate Opcode.newarray (Int16.ofNat code.toNat))
        (.newArray code)
  | ldc {op : Opcode} {entry : ConstantRef} {adjustment : Int16} {index : UInt16}
      (family : op = Opcode.ldc ∨ op = Opcode.ldc_w ∨ op = Opcode.ldc2_w)
      (known : pool.indexOf entry = .ok index) :
      Corresponds d pool offsets (.constant op entry adjustment) (.ldc index)
  | field {op : Opcode} {entry : ConstantRef} {adjustment : Int16} {index : UInt16}
      (known : pool.indexOf entry = .ok index) :
      Corresponds d pool offsets (.constant op entry adjustment) (.member op index)
  | cls {op : Opcode} {entry : ConstantRef} {adjustment : Int16} {index : UInt16}
      (known : pool.indexOf entry = .ok index) :
      Corresponds d pool offsets (.constant op entry adjustment) (.cls op index)
  | invoke {op : Opcode} {entry : ConstantRef} {adjustment : Int16} {slots : UInt8} {index : UInt16}
      (known : pool.indexOf entry = .ok index) :
      Corresponds d pool offsets (.invoke op entry adjustment slots) (.member op index)
  | multiNewArray {entry : ConstantRef} {dimensions : UInt8} {index : UInt16}
      (known : pool.indexOf entry = .ok index) :
      Corresponds d pool offsets (.multiNewArray entry dimensions) (.multiNewArray index dimensions)
  | load {v : Local} {kind : LocalKind} {info : LocalInfo} {slot : UInt16}
      (stored : d.locals[v.index]? = some info) (given : info.slot = some slot) :
      Corresponds d pool offsets (.load v kind) (.access info.kind slot false)
  | store {v : Local} {kind : LocalKind} {info : LocalInfo} {slot : UInt16}
      (stored : d.locals[v.index]? = some info) (given : info.slot = some slot) :
      Corresponds d pool offsets (.store v kind false) (.access info.kind slot true)
  | dropped {v : Local} {kind : LocalKind} :
      Corresponds d pool offsets (.store v kind true)
        (.simple (if kind.width = 2 then Opcode.pop2 else Opcode.pop))
  | increment {v : Local} {amount : Int16} {slot : UInt16} (given : d.slotOf v = .ok slot) :
      Corresponds d pool offsets (.increment v amount) (.increment slot amount)
  | ret {v : Local} {slot : UInt16} (given : d.slotOf v = .ok slot) :
      Corresponds d pool offsets (.ret v) (.ret slot)
  | branch {op : Opcode} {target : Label} {there : Nat}
      (known : offsets.of? target.node = some there) :
      Corresponds d pool offsets (.branch op target) (.branch op there)
  | switch {default : Label} {cases : List (Int32 × Label)} {table : Bool} {there : Nat}
      {rows : List (Int32 × Nat)} (known : offsets.of? default.node = some there)
      (keys : rows.map (·.1) = switchKeys cases table)
      (targets : ∀ row ∈ rows,
        offsets.of? ((cases.lookup row.1).getD default).node = some row.2) :
      Corresponds d pool offsets (.switch default cases table) (.switch there rows)

/-- Instructions that the decoder can tell from their bytes. -/
def Instruction.Writable (locals : Array LocalInfo) : Instruction → Prop
  | .simple op => Format.ofOpcode op = .plain
  | .immediate op n =>
    (op = Opcode.bipush ∧ -128 ≤ n.toInt ∧ n.toInt ≤ 127) ∨ op = Opcode.sipush ∨
      (op = Opcode.newarray ∧ ∃ code : UInt8, n = Int16.ofNat code.toNat)
  | .constant op _ _ =>
    op = Opcode.ldc ∨ op = Opcode.ldc2_w ∨ Format.ofOpcode op = .member ∨
      Format.ofOpcode op = .cls
  | .invoke op _ _ _ => Format.ofOpcode op = .member ∨ op = Opcode.invokeinterface
  | .load v kind => ∃ info, locals[v.index]? = some info ∧ kind = info.kind
  | .store v kind _ => ∃ info, locals[v.index]? = some info ∧ kind = info.kind
  | .branch op _ => Format.ofOpcode op = .branch ∨ Format.ofOpcode op = .farBranch
  | .switch _ cases _ => cases.Pairwise fun c c' => c.1 < c'.1
  | _ => True

namespace Encoding

open Scan

variable {position : Nat}

theorem readsAt_plain {op : Opcode} (plain : Format.ofOpcode op = .plain) :
    ReadsAt position Decoded.read [op] (.simple op) :=
  Decoded.readsAt_read plain (.pure _)

theorem toInt16_toInt8 {n : Int16} (low : -128 ≤ n.toInt) (high : n.toInt ≤ 127) :
    n.toInt8.toInt16 = n := by
  apply Int16.toInt_inj.mp
  rw [Int8.toInt_toInt16, Int16.toInt_toInt8]
  exact Int.bmod_eq_of_le (by omega) (by omega)

theorem toUInt16_toUInt8 {n : UInt16} (small : n ≤ 255) : n.toUInt8.toUInt16 = n := by
  apply UInt16.toNat_inj.mp
  have bound : n.toNat ≤ 255 := UInt16.le_iff_toNat_le.mp small
  rw [UInt8.toNat_toUInt16, UInt16.toNat_toUInt8]
  omega

theorem readsAt_bytePush {n : Int16} (low : -128 ≤ n.toInt) (high : n.toInt ≤ 127) :
    ReadsAt position Decoded.read [Opcode.bipush, n.toInt8.toUInt8] (.push n) := by
  have operand : ReadsAt (position + 1) (Format.bytePush.operands position Opcode.bipush) _ _ :=
    ReadsAt.map (f := fun m : Int8 => Decoded.push m.toInt16) (.i8 n.toInt8)
  rw [toInt16_toInt8 low high] at operand
  exact Decoded.readsAt_read (by decide) operand

theorem readsAt_shortPush (n : Int16) :
    ReadsAt position Decoded.read (Opcode.sipush :: be16 n.toUInt16) (.push n) :=
  Decoded.readsAt_read (show Format.ofOpcode Opcode.sipush = .shortPush by decide)
    (.map (f := Decoded.push) (.i16 n))

theorem newArray_code (code : UInt8) : (Int16.ofNat code.toNat).toInt8.toUInt8 = code := by
  have all := Opcode.forall_of_all
    (p := fun code => (Int16.ofNat code.toNat).toInt8.toUInt8 == code) (by decide +kernel) code
  exact beq_iff_eq.mp all

theorem readsAt_newArray (code : UInt8) :
    ReadsAt position Decoded.read [Opcode.newarray, code] (.newArray code) :=
  Decoded.readsAt_read (show Format.ofOpcode Opcode.newarray = .newArray by decide)
    (.map (f := Decoded.newArray) (.u8 code))

theorem readsAt_byteLoad {index : UInt16} (small : index ≤ 255) :
    ReadsAt position Decoded.read [Opcode.ldc, index.toUInt8] (.ldc index) := by
  have operand : ReadsAt (position + 1) (Format.byteLoad.operands position Opcode.ldc) _ _ :=
    ReadsAt.map (f := fun m : UInt8 => Decoded.ldc m.toUInt16) (.u8 index.toUInt8)
  rw [toUInt16_toUInt8 small] at operand
  exact Decoded.readsAt_read (by decide) operand

theorem readsAt_shortLoad {op : Opcode} (format : Format.ofOpcode op = .shortLoad)
    (index : UInt16) : ReadsAt position Decoded.read (op :: be16 index) (.ldc index) :=
  Decoded.readsAt_read format (.map (f := Decoded.ldc) (.u16 index))

theorem readsAt_member {op : Opcode} (format : Format.ofOpcode op = .member) (index : UInt16) :
    ReadsAt position Decoded.read (op :: be16 index) (.member op index) :=
  Decoded.readsAt_read format (.map (f := Decoded.member op) (.u16 index))

theorem readsAt_cls {op : Opcode} (format : Format.ofOpcode op = .cls) (index : UInt16) :
    ReadsAt position Decoded.read (op :: be16 index) (.cls op index) :=
  Decoded.readsAt_read format (.map (f := Decoded.cls op) (.u16 index))

theorem readsAt_interface (index : UInt16) (slots : UInt8) :
    ReadsAt position Decoded.read (Opcode.invokeinterface :: be16 index ++ [slots, 0])
      (.member Opcode.invokeinterface index) := by
  refine Decoded.readsAt_read
    (show Format.ofOpcode Opcode.invokeinterface = .interface by decide) ?_
  exact .bind (.u16 index) fun _ => rfl

theorem readsAt_multiNewArray (index : UInt16) (dimensions : UInt8) :
    ReadsAt position Decoded.read (Opcode.multianewarray :: be16 index ++ [dimensions])
      (.multiNewArray index dimensions) := by
  refine Decoded.readsAt_read
    (show Format.ofOpcode Opcode.multianewarray = .multiNewArray by decide) ?_
  exact .bind (.u16 index) (.map (f := Decoded.multiNewArray index) (.u8 dimensions))

/-- The opcodes of loads or of stores of one kind. -/
structure Family (kind : LocalKind) (isStore : Bool) (op : Opcode) (short : UInt8 → Opcode) :
    Prop where
  format : Format.ofOpcode op = .access
  kindOf : LocalKind.ofLocalOpcode? op = some (kind, none)
  isLong : Decoded.isLongAccess op = true
  stores : decide (Opcode.istore ≤ op) = isStore
  shorts : ∀ slot ∈ [0, 1, 2, 3], Format.ofOpcode (short slot) = .access ∧
    LocalKind.ofLocalOpcode? (short slot) = some (kind, some slot) ∧
    decide (Opcode.istore ≤ short slot) = isStore

theorem family_load (kind : LocalKind) :
    Family kind false kind.loadOpcode kind.shortLoadOpcode := by
  cases kind
  all_goals
    refine ⟨by decide, by decide, by decide, by decide, ?_⟩
    simp only [List.forall_mem_cons, List.not_mem_nil, false_implies, implies_true, and_true]
    decide

theorem family_store (kind : LocalKind) :
    Family kind true kind.storeOpcode kind.shortStoreOpcode := by
  cases kind
  all_goals
    refine ⟨by decide, by decide, by decide, by decide, ?_⟩
    simp only [List.forall_mem_cons, List.not_mem_nil, false_implies, implies_true, and_true]
    decide

theorem mem_short {slot : UInt16} (small : slot ≤ 3) :
    slot.toUInt8 ∈ ([0, 1, 2, 3] : List UInt8) ∧ slot.toUInt8.toUInt16 = slot := by
  have bound : slot.toNat ≤ 3 := UInt16.le_iff_toNat_le.mp small
  have back : slot.toUInt8.toUInt16 = slot :=
    toUInt16_toUInt8 (UInt16.le_iff_toNat_le.mpr (Nat.le_trans bound (by decide)))
  have byte : slot.toUInt8.toNat ≤ 3 := by
    rw [UInt16.toNat_toUInt8]
    omega
  refine ⟨?_, back⟩
  simp only [List.mem_cons, List.not_mem_nil, or_false, ← UInt8.toNat_inj]
  change _ = 0 ∨ _ = 1 ∨ _ = 2 ∨ _ = 3
  omega

theorem readsAt_localAccess {kind : LocalKind} {isStore : Bool} {op : Opcode}
    {short : UInt8 → Opcode} (f : Family kind isStore op short) (slot : UInt16) :
    ReadsAt position Decoded.read (localAccess slot op short) (.access kind slot isStore) := by
  unfold localAccess
  split
  · rename_i small
    obtain ⟨member, back⟩ := mem_short small
    obtain ⟨format, kindOf, stores⟩ := f.shorts _ member
    apply Decoded.readsAt_read format
    simp only [Format.operands, Decoded.accessOperand, kindOf, stores, back]
    exact .pure _
  · split
    · rename_i small
      apply Decoded.readsAt_read f.format
      simp only [Format.operands, Decoded.accessOperand, f.kindOf, f.stores]
      have operand : ReadsAt (position + 1) _ _ _ :=
        ReadsAt.map (f := fun s : UInt8 => Decoded.access kind s.toUInt16 isStore)
          (.u8 slot.toUInt8)
      rw [toUInt16_toUInt8 small] at operand
      exact operand
    · apply Decoded.readsAt_read (show Format.ofOpcode Opcode.wide = .wide by decide)
      have notInc : op ≠ Opcode.iinc := by
        rintro rfl
        exact absurd f.isLong (by decide)
      have notRet : op ≠ Opcode.ret := by
        rintro rfl
        exact absurd f.isLong (by decide)
      refine .bind (.u8 op) ?_
      simp only [notInc, notRet, f.isLong, f.kindOf, f.stores, if_true, if_false]
      exact .map (f := fun slot => Decoded.access kind slot isStore) (.u16 slot)

theorem readsAt_increment (slot : UInt16) (amount : Int16) :
    ReadsAt position Decoded.read (increment slot amount) (.increment slot amount) := by
  unfold increment
  split
  · rename_i small
    simp only [fitsByte, Bool.and_eq_true, decide_eq_true_eq, Int16.le_iff_toInt_le] at small
    have operands : ReadsAt (position + 1) (Format.increment.operands position Opcode.iinc) _ _ :=
      ReadsAt.bind (.u8 slot.toUInt8)
        (.map (f := fun n : Int8 => Decoded.increment slot.toUInt8.toUInt16 n.toInt16)
          (.i8 amount.toInt8))
    rw [toUInt16_toUInt8 small.1, toInt16_toInt8 small.2.1 small.2.2] at operands
    exact Decoded.readsAt_read (show Format.ofOpcode Opcode.iinc = .increment by decide) operands
  · apply Decoded.readsAt_read (show Format.ofOpcode Opcode.wide = .wide by decide)
    exact .bind (.u8 Opcode.iinc) (.bind (.u16 slot)
      (.map (f := Decoded.increment slot) (.i16 amount)))

theorem readsAt_ret (slot : UInt16) :
    ReadsAt position Decoded.read (ret slot) (.ret slot) := by
  unfold ret
  split
  · rename_i small
    have operand : ReadsAt (position + 1) (Format.ret.operands position Opcode.ret) _ _ :=
      ReadsAt.map (f := fun s : UInt8 => Decoded.ret s.toUInt16) (.u8 slot.toUInt8)
    rw [toUInt16_toUInt8 small] at operand
    exact Decoded.readsAt_read (show Format.ofOpcode Opcode.ret = .ret by decide) operand
  · apply Decoded.readsAt_read (show Format.ofOpcode Opcode.wide = .wide by decide)
    exact .bind (.u8 Opcode.ret) (.map (f := Decoded.ret) (.u16 slot))

theorem readsAt_target {address there : Nat} {distance : Int32}
    (h : (address : Int) + distance.toInt = there) (small : there < 2 ^ 32) :
    ReadsAt position (Decoded.target address distance) [] there := by
  have inside : ¬ ((there : Int) < 0 ∨ 4294967296 ≤ (there : Int)) := by omega
  simp only [Decoded.target, h, inside, if_false, Int.toNat_natCast]
  exact .pure there

theorem readsAt_branch {op : Opcode} (format : Format.ofOpcode op = .branch) {there : Nat}
    {word : Int16} (h : (position : Int) + word.toInt = there) (small : there < 2 ^ 32) :
    ReadsAt position Decoded.read (op :: be16 word.toUInt16) (.branch op there) := by
  apply Decoded.readsAt_read format
  rw [← Int16.toInt_toInt32] at h
  exact .bind (.i16 word) (.map (f := Decoded.branch op) (readsAt_target h small))

theorem readsAt_farBranch {op : Opcode} (format : Format.ofOpcode op = .farBranch) {there : Nat}
    {word : Int32} (h : (position : Int) + word.toInt = there) (small : there < 2 ^ 32) :
    ReadsAt position Decoded.read (op :: be32 word.toUInt32) (.branch op there) := by
  apply Decoded.readsAt_read format
  exact .bind (.i32 word) (.map (f := Decoded.branch op) (readsAt_target h small))

section Switch

variable {offsets : Offsets} {offset : Nat}

/-- A target with an offset in the code. -/
def Known (offsets : Offsets) (label : Label) : Prop :=
  ∃ there ≤ 65535, offsets.of? label.node = some there

/-- A target with an offset, at a distance that a word can hold. Offsets are words themselves. -/
def InReach (offsets : Offsets) (offset : Nat) (label : Label) : Prop :=
  ∃ there < 2 ^ 32, offsets.of? label.node = some there ∧
    -2 ^ 31 ≤ (there : Int) - offset ∧ (there : Int) - offset < 2 ^ 31

theorem Known.inReach {label : Label} (known : Known offsets label) (near : offset ≤ 65535) :
    InReach offsets offset label := by
  obtain ⟨there, close, found⟩ := known
  exact ⟨there, by omega, found, by omega, by omega⟩

theorem readsAt_padding (offset : Nat) :
    ReadsAt (offset + 1) Decoded.skipPadding (padding offset) () := by
  have size : (4 - (offset + 1) % 4) % 4 = 3 - offset % 4 := by omega
  intro rest
  simp only [Decoded.skipPadding, Scan.take, size, padding, List.splitAt_eq]
  simp

theorem readsAt_jump {β : Type} {k : Nat → Scan β} {label : Label} {there : Nat} {bytes : Bytes}
    {b : β} (small : there < 2 ^ 32) (known : offsets.of? label.node = some there)
    (low : -2 ^ 31 ≤ (there : Int) - offset) (high : (there : Int) - offset < 2 ^ 31)
    (h : ReadsAt (position + 4) (k there) bytes b) :
    ReadsAt position (do k (← Decoded.target offset (← Scan.i32)))
      (jump offsets offset label ++ bytes) b := by
  have exact : (offset : Int) + (Int32.ofInt ((there : Int) - offset)).toInt = there := by
    rw [Int32.toInt_ofInt_of_le low high]
    omega
  simp only [jump, known]
  exact .bind (.i32 _) (.bind (readsAt_target exact small) h)

/-- Rows of a table: consecutive keys with the offsets of labels. -/
def tableRows (offsets : Offsets) (key : Int) : List Label → List (Int32 × Nat)
  | [] => []
  | label :: rest =>
    (Int32.ofInt key, (offsets.of? label.node).getD 0) :: tableRows offsets (key + 1) rest

theorem readsAt_tableCases {labels : List Label}
    (known : ∀ label ∈ labels, InReach offsets offset label) (done : Array (Int32 × Nat))
    (key : Int) :
    ReadsAt position (Decoded.tableCases offset done key labels.length)
      (labels.flatMap (jump offsets offset)) (done.toList ++ tableRows offsets key labels) := by
  induction labels generalizing position done key with
  | nil =>
      rw [tableRows, List.append_nil]
      exact .pure _
  | cons label rest ih =>
      rw [List.forall_mem_cons] at known
      obtain ⟨there, small, found, low, high⟩ := known.1
      have later : ReadsAt (position + 4) _ _ _ :=
        ih known.2 (done.push (Int32.ofInt key, there)) (key + 1)
      rw [Array.toList_push, List.append_assoc, List.singleton_append] at later
      simp only [List.flatMap_cons, tableRows, found, Option.getD_some]
      exact readsAt_jump small found low high later

theorem readsAt_lookupCases {cases : List (Int32 × Label)}
    (known : ∀ c ∈ cases, InReach offsets offset c.2) (done : Array (Int32 × Nat)) :
    ReadsAt position (Decoded.lookupCases offset done cases.length)
      (cases.flatMap fun c => be32 c.1.toUInt32 ++ jump offsets offset c.2)
      (done.toList ++ cases.map fun c => (c.1, (offsets.of? c.2.node).getD 0)) := by
  induction cases generalizing position done with
  | nil =>
      rw [List.map_nil, List.append_nil]
      exact .pure _
  | cons c rest ih =>
      rw [List.forall_mem_cons] at known
      obtain ⟨there, small, found, low, high⟩ := known.1
      have later : ReadsAt (position + 8) _ _ _ := ih known.2 (done.push (c.1, there))
      rw [Array.toList_push, List.append_assoc, List.singleton_append] at later
      simp only [List.flatMap_cons, List.map_cons, found, Option.getD_some, List.append_assoc]
      exact .bind (.i32 c.1) (readsAt_jump small found low high later)

theorem toInt_ofInt_key {key : Int} (low : -2 ^ 31 ≤ key) (high : key < 2 ^ 31) {k : Int32} :
    Int32.ofInt key = k ↔ k.toInt = key := by
  rw [← Int32.toInt_inj, Int32.toInt_ofInt_of_le low high]
  exact eq_comm

/-- No case has a key below all of theirs. -/
theorem lookup_eq_none_of_lt {cases : List (Int32 × Label)} {key : Int} (low : -2 ^ 31 ≤ key)
    (high : key < 2 ^ 31) (above : ∀ c ∈ cases, key + 1 ≤ c.1.toInt) :
    cases.lookup (Int32.ofInt key) = none := by
  rw [List.lookup_eq_none_iff]
  intro c member
  rw [bne_iff_ne, Ne, toInt_ofInt_key low high]
  have more := above c member
  omega

/-- Behind the key of the first case the others decide. -/
theorem lookup_cons_of_lt {c : Int32 × Label} {key : Int} (low : c.1.toInt < key)
    (high : key < 2 ^ 31) (cs : List (Int32 × Label)) :
    (c :: cs).lookup (Int32.ofInt key) = cs.lookup (Int32.ofInt key) := by
  have least := Int32.le_toInt c.1
  have apart : (Int32.ofInt key == c.1) = false := by
    rw [beq_eq_false_iff_ne, Ne, toInt_ofInt_key (by omega) high]
    omega
  rw [List.lookup_cons, apart]

theorem lookup_of_mem {cases : List (Int32 × Label)}
    (sorted : cases.Pairwise fun c c' => c.1 < c'.1) {c : Int32 × Label} (member : c ∈ cases) :
    cases.lookup c.1 = some c.2 := by
  obtain ⟨front, back, rfl⟩ := List.append_of_mem member
  apply List.lookup_eq_some_iff.mpr
  refine ⟨front, back, rfl, ?_⟩
  intro p early
  have less := (List.pairwise_append.mp sorted).2.2 p early c (List.mem_cons_self ..)
  exact bne_iff_ne.mpr fun same => Int32.lt_irrefl (same ▸ less)

/-- A table has the label of the case with its key, or the default. -/
theorem tableLabels_eq {default : Label} {cases : List (Int32 × Label)}
    (sorted : cases.Pairwise fun c c' => c.1 < c'.1) {n : Nat} {key : Int} (low : -2 ^ 31 ≤ key)
    (high : key + n ≤ 2 ^ 31) (above : ∀ c ∈ cases, key ≤ c.1.toInt) (done : Array Label) :
    tableLabels default done n key cases = done.toList ++
      (List.range n).map fun i : Nat => (cases.lookup (Int32.ofInt (key + i))).getD default := by
  induction n generalizing key cases done with
  | zero => simp [tableLabels]
  | succ n ih =>
      have later : ∀ i : Nat, key + ((i + 1 : Nat) : Int) = key + 1 + i := by
        intro i
        push_cast
        omega
      rw [List.range_succ_eq_map, List.map_cons, List.map_map]
      simp only [Function.comp_def, Nat.succ_eq_add_one, later]
      cases cases with
      | nil =>
          rw [tableLabels, ih sorted (by omega) (by omega) (by simp)]
          simp
      | cons c cs =>
          have bound : key < 2 ^ 31 := by omega
          have here : key + ((0 : Nat) : Int) = key := by simp
          have least := above c (List.mem_cons_self ..)
          have behind : ∀ c' ∈ cs, key + 1 ≤ c'.1.toInt := by
            intro c' member
            have less := Int32.lt_iff_toInt_lt.mp ((List.pairwise_cons.mp sorted).1 c' member)
            omega
          rw [here]
          unfold tableLabels
          split
          · rename_i same
            have found : (c :: cs).lookup (Int32.ofInt key) = some c.2 := by
              rw [(toInt_ofInt_key low bound).mpr same]
              exact List.lookup_cons_self
            have others : ∀ i ∈ List.range n,
                (cs.lookup (Int32.ofInt (key + 1 + (i : Nat)))).getD default =
                  ((c :: cs).lookup (Int32.ofInt (key + 1 + (i : Nat)))).getD default := by
              intro i member
              rw [List.mem_range] at member
              rw [lookup_cons_of_lt (by omega) (by omega)]
            rw [ih (List.pairwise_cons.mp sorted).2 (by omega) (by omega) behind, found,
              List.map_congr_left others, Array.toList_push, List.append_assoc]
            rfl
          · rename_i other
            have all : ∀ c' ∈ c :: cs, key + 1 ≤ c'.1.toInt :=
              List.forall_mem_cons.mpr ⟨by omega, behind⟩
            rw [ih sorted (by omega) (by omega) all, lookup_eq_none_of_lt low bound all,
              Array.toList_push, List.append_assoc]
            rfl

theorem map_fst_tableRows (offsets : Offsets) (key : Int) (labels : List Label) :
    (tableRows offsets key labels).map (·.1) =
      (List.range labels.length).map fun i : Nat => Int32.ofInt (key + i) := by
  induction labels generalizing key with
  | nil => rfl
  | cons label rest ih =>
      rw [tableRows, List.map_cons, ih, List.length_cons, List.range_succ_eq_map, List.map_cons,
        List.map_map]
      simp only [Function.comp_def, Nat.succ_eq_add_one, Int.natCast_zero, Int.add_zero]
      congr 2
      funext i
      congr 1
      push_cast
      omega

theorem mem_tableRows {key : Int} {labels : List Label} {row : Int32 × Nat}
    (h : row ∈ tableRows offsets key labels) :
    ∃ (i : Nat) (label : Label), labels[i]? = some label ∧ row.1 = Int32.ofInt (key + i) ∧
      row.2 = (offsets.of? label.node).getD 0 := by
  induction labels generalizing key with
  | nil => cases h
  | cons label rest ih =>
      rcases List.mem_cons.mp h with rfl | later
      · exact ⟨0, label, rfl, by simp, rfl⟩
      · obtain ⟨i, found, stored, first, second⟩ := ih later
        refine ⟨i + 1, found, stored, ?_, second⟩
        rw [first]
        congr 1
        push_cast
        omega

/-- A switch reads as rows that correspond to it. -/
def SwitchRead (offsets : Offsets) (offset : Nat) (default : Label)
    (cases : List (Int32 × Label)) (keys : List Int32) (code : Bytes) : Prop :=
  ∃ there rows, ReadsAt offset Decoded.read code (.switch there rows) ∧
    offsets.of? default.node = some there ∧ rows.map (·.1) = keys ∧
    ∀ row ∈ rows, offsets.of? ((cases.lookup row.1).getD default).node = some row.2

theorem inReach_lookup {default : Label} {cases : List (Int32 × Label)}
    (known : ∀ label ∈ cases.map (·.2) ++ [default], InReach offsets offset label) (k : Int32) :
    InReach offsets offset ((cases.lookup k).getD default) := by
  apply known
  cases found : cases.lookup k with
  | none => simp
  | some label =>
      obtain ⟨front, back, split, -⟩ := List.lookup_eq_some_iff.mp found
      rw [Option.getD_some, split]
      simp

theorem switchTable_read {default : Label} {cases : List (Int32 × Label)} {low high : Int32}
    (sorted : cases.Pairwise fun c c' => c.1 < c'.1)
    (known : ∀ label ∈ cases.map (·.2) ++ [default], InReach offsets offset label)
    (above : ∀ c ∈ cases, low.toInt ≤ c.1.toInt) (ordered : low.toInt ≤ high.toInt) :
    SwitchRead offsets offset default cases
      ((List.range (high.toInt - low.toInt + 1).toNat).map
        fun i : Nat => Int32.ofInt (low.toInt + i))
      (switchTable offsets offset default cases low high) := by
  obtain ⟨there, small, found, back, ahead⟩ := known default (by simp)
  have least := low.le_toInt
  have most := high.toInt_lt
  let labels := (List.range (high.toInt - low.toInt + 1).toNat).map fun i : Nat =>
    (cases.lookup (Int32.ofInt (low.toInt + i))).getD default
  have same : tableLabels default #[] (high.toInt - low.toInt + 1).toNat low.toInt cases =
      labels := tableLabels_eq sorted least (by omega) above #[]
  have size : (high.toInt - low.toInt + 1).toNat = labels.length := by simp [labels]
  have inTable : ∀ label ∈ labels, InReach offsets offset label := by
    intro label member
    obtain ⟨i, -, rfl⟩ := List.mem_map.mp member
    exact inReach_lookup known _
  refine ⟨there, tableRows offsets low.toInt labels, ?_, found, ?_, ?_⟩
  · unfold switchTable
    rw [same]
    simp only [List.cons_append, List.append_assoc]
    apply Decoded.readsAt_read (show Format.ofOpcode Opcode.tableswitch = .table by decide)
    refine .bind (readsAt_padding offset) (readsAt_jump small found back ahead ?_)
    refine .bind (.i32 low) (.bind (.i32 high) ?_)
    rw [size]
    exact .map (f := Decoded.switch there) (readsAt_tableCases inTable #[] low.toInt)
  · rw [map_fst_tableRows, List.length_map, List.length_range]
  · intro row member
    obtain ⟨i, label, stored, first, second⟩ := mem_tableRows member
    rw [List.getElem?_map, Option.map_eq_some_iff] at stored
    obtain ⟨j, inRange, rfl⟩ := stored
    obtain ⟨bound, rfl⟩ := List.getElem?_eq_some_iff.mp inRange
    rw [List.getElem_range] at second
    obtain ⟨t, -, stands, -⟩ := inReach_lookup known (Int32.ofInt (low.toInt + i))
    rw [first, second, stands, Option.getD_some]

theorem length_le_flatMap {α : Type} {f : α → Bytes} (nonempty : ∀ a, 0 < (f a).length)
    (xs : List α) : xs.length ≤ (xs.flatMap f).length := by
  induction xs with
  | nil => simp
  | cons x xs ih =>
      have first := nonempty x
      rw [List.flatMap_cons, List.length_append, List.length_cons]
      omega

theorem length_le_switchList (default : Label) (cases : List (Int32 × Label)) :
    cases.length ≤ (switchList offsets offset default cases).length := by
  have counted := length_le_flatMap (f := fun c : Int32 × Label =>
    be32 c.1.toUInt32 ++ jump offsets offset c.2) (by simp [be32]) cases
  simp only [switchList, List.length_append]
  omega

theorem switchList_read {default : Label} {cases : List (Int32 × Label)}
    (sorted : cases.Pairwise fun c c' => c.1 < c'.1)
    (known : ∀ label ∈ cases.map (·.2) ++ [default], InReach offsets offset label)
    (few : cases.length < 2 ^ 31) :
    SwitchRead offsets offset default cases (cases.map (·.1))
      (switchList offsets offset default cases) := by
  obtain ⟨there, small, found, back, ahead⟩ := known default (by simp)
  have inCases : ∀ c ∈ cases, InReach offsets offset c.2 := by
    intro c member
    exact known c.2 (List.mem_append_left _ (List.mem_map_of_mem member))
  have size : (UInt32.ofNat cases.length).toInt32.toInt.toNat = cases.length := by
    have words : Int32.size = 2 ^ 32 := rfl
    rw [UInt32.toInt32_ofNat', Int32.toInt_ofNat', words,
      Int.bmod_eq_of_le (by omega) (by omega), Int.toNat_natCast]
  refine ⟨there, cases.map fun c => (c.1, (offsets.of? c.2.node).getD 0), ?_, found, ?_, ?_⟩
  · unfold switchList
    simp only [List.cons_append, List.append_assoc]
    apply Decoded.readsAt_read (show Format.ofOpcode Opcode.lookupswitch = .lookup by decide)
    refine .bind (readsAt_padding offset) (readsAt_jump small found back ahead ?_)
    refine .bind (.map (f := UInt32.toInt32) (.u32 (UInt32.ofNat cases.length))) ?_
    rw [size]
    exact .map (f := Decoded.switch there) (readsAt_lookupCases inCases #[])
  · rw [List.map_map]
    rfl
  · intro row member
    obtain ⟨c, inside, rfl⟩ := List.mem_map.mp member
    obtain ⟨t, -, stands, -⟩ := inCases c inside
    rw [lookup_of_mem sorted inside, Option.getD_some, stands, Option.getD_some]

theorem head_le {cases : List (Int32 × Label)} (sorted : cases.Pairwise fun c c' => c.1 < c'.1)
    {first : Int32 × Label} (head : cases.head? = some first) :
    ∀ c ∈ cases, first.1.toInt ≤ c.1.toInt := by
  obtain ⟨rest, rfl⟩ := List.head?_eq_some_iff.mp head
  intro c member
  rcases List.mem_cons.mp member with rfl | later
  · exact Int.le_refl _
  · exact Int.le_of_lt (Int32.lt_iff_toInt_lt.mp ((List.pairwise_cons.mp sorted).1 c later))

/-- A switch is a table from its first key to its last, or a list of its cases. -/
theorem switch_eq_bytes {default : Label} {cases : List (Int32 × Label)} {table settled : Bool}
    {code : Bytes} (written : switch offsets offset default cases table = .bytes code settled) :
    (∃ first last, cases.head? = some first ∧ cases.getLast? = some last ∧
        switchKeys cases table = ((List.range (last.1.toInt - first.1.toInt + 1).toNat).map
          fun i : Nat => Int32.ofInt (first.1.toInt + i)) ∧
        code = switchTable offsets offset default cases first.1 last.1) ∨
      ((table = true → cases = []) ∧ switchKeys cases table = cases.map (·.1) ∧
        code = switchList offsets offset default cases) := by
  unfold switch at written
  unfold switchKeys
  cases table with
  | false =>
      cases written
      exact .inr ⟨fun form => absurd form Bool.false_ne_true, rfl, rfl⟩
  | true =>
      cases head : cases.head? with
      | none =>
          cases List.head?_eq_none_iff.mp head
          cases written
          exact .inr ⟨fun _ => rfl, rfl, rfl⟩
      | some first =>
          cases tail : cases.getLast? with
          | none =>
              cases List.getLast?_eq_none_iff.mp tail
              cases head
          | some last =>
              rw [head, tail] at written
              cases written
              exact .inl ⟨first, last, rfl, rfl, rfl, rfl⟩

/-- Every sorted switch whose targets are known reads back. -/
theorem switch_read {default : Label} {cases : List (Int32 × Label)} {table : Bool} {code : Bytes}
    (sorted : cases.Pairwise fun c c' => c.1 < c'.1)
    (known : ∀ label ∈ cases.map (·.2) ++ [default], InReach offsets offset label)
    (written : switch offsets offset default cases table = .bytes code true)
    (few : table = false → cases.length < 2 ^ 31) :
    SwitchRead offsets offset default cases (switchKeys cases table) code := by
  rcases switch_eq_bytes written with ⟨first, last, head, tail, keys, rfl⟩ | ⟨empty, keys, rfl⟩
  · have above := head_le sorted head
    rw [keys]
    exact switchTable_read sorted known above (above _ (List.mem_of_getLast? tail))
  · rw [keys]
    refine switchList_read sorted known ?_
    cases table with
    | false => exact few rfl
    | true =>
        rw [empty rfl]
        decide

end Switch

end Encoding

open Encoding Scan

section Instructions

variable {d : Draft} {pool : Pool} {offsets : Offsets} {offset : Nat} {code : Bytes}

theorem constant_read {op : Opcode} {entry : ConstantRef} {adjustment : Int16} {index : UInt16}
    (writable : (Instruction.constant op entry adjustment).Writable d.locals)
    (found : pool.indexOf entry = .ok index) :
    ∃ i, Corresponds d pool offsets (.constant op entry adjustment) i ∧
      ReadsAt offset Decoded.read (Encoding.constant op index) i := by
  have plain : ∀ form, Format.ofOpcode op = form → form ≠ .byteLoad → op ≠ Opcode.ldc_w →
      Encoding.constant op index = op :: be16 index := by
    intro form format other long
    have short : op ≠ Opcode.ldc := by
      rintro rfl
      exact other format.symm
    simp [Encoding.constant, short, long]
  have notLong : ∀ form, Format.ofOpcode op = form → form ≠ .shortLoad → op ≠ Opcode.ldc_w := by
    rintro form format other rfl
    exact other format.symm
  rcases writable with rfl | rfl | member | cls
  · refine ⟨_, .ldc (.inl rfl) found, ?_⟩
    by_cases small : index ≤ 255
    · simp only [Encoding.constant, small, beq_self_eq_true, Bool.true_or, if_true]
      exact readsAt_byteLoad small
    · simp only [Encoding.constant, small, beq_self_eq_true, Bool.true_or, if_true, if_false]
      exact readsAt_shortLoad (by decide) index
  · exact ⟨_, .ldc (.inr (.inr rfl)) found, readsAt_shortLoad (by decide) index⟩
  · rw [plain _ member (by decide) (notLong _ member (by decide))]
    exact ⟨_, .field found, readsAt_member member index⟩
  · rw [plain _ cls (by decide) (notLong _ cls (by decide))]
    exact ⟨_, .cls found, readsAt_cls cls index⟩

theorem invoke_read {op : Opcode} {entry : ConstantRef} {adjustment : Int16} {slots : UInt8}
    {index : UInt16} (writable : (Instruction.invoke op entry adjustment slots).Writable d.locals)
    (found : pool.indexOf entry = .ok index) :
    ∃ i, Corresponds d pool offsets (.invoke op entry adjustment slots) i ∧
      ReadsAt offset Decoded.read
        (op :: be16 index ++ if op == Opcode.invokeinterface then [slots, 0] else []) i := by
  rcases writable with member | rfl
  · have other : (op == Opcode.invokeinterface) = false := by
      rw [beq_eq_false_iff_ne]
      rintro rfl
      exact absurd member (by decide)
    rw [other]
    exact ⟨_, .invoke found, readsAt_member member index⟩
  · exact ⟨_, .invoke found, readsAt_interface index slots⟩

theorem exists_of_slotOf {v : Local} {slot : UInt16} (h : d.slotOf v = .ok slot) :
    ∃ info, d.locals[v.index]? = some info ∧ info.slot = some slot := by
  unfold Draft.slotOf at h
  split at h
  · rename_i stored
    cases h
    exact ⟨_, stored, rfl⟩
  · cases h

theorem load_read {v : Local} {kind : LocalKind} {slot : UInt16}
    (writable : (Instruction.load v kind).Writable d.locals) (found : d.slotOf v = .ok slot) :
    ∃ i, Corresponds d pool offsets (.load v kind) i ∧
      ReadsAt offset Decoded.read
        (localAccess slot kind.loadOpcode kind.shortLoadOpcode) i := by
  obtain ⟨info, stored, rfl⟩ := writable
  obtain ⟨info', stored', given⟩ := exists_of_slotOf found
  rw [stored] at stored'
  cases stored'
  exact ⟨_, .load stored given, readsAt_localAccess (family_load _) slot⟩

theorem store_read {v : Local} {kind : LocalKind} {slot : UInt16}
    (writable : (Instruction.store v kind false).Writable d.locals)
    (found : d.slotOf v = .ok slot) :
    ∃ i, Corresponds d pool offsets (.store v kind false) i ∧
      ReadsAt offset Decoded.read
        (localAccess slot kind.storeOpcode kind.shortStoreOpcode) i := by
  obtain ⟨info, stored, rfl⟩ := writable
  obtain ⟨info', stored', given⟩ := exists_of_slotOf found
  rw [stored] at stored'
  cases stored'
  exact ⟨_, .store stored given, readsAt_localAccess (family_store _) slot⟩

theorem branch_read {op : Opcode} {target : Label} (near : offset ≤ 65535)
    (known : Known offsets target) (writable : (Instruction.branch op target).Writable d.locals)
    (written : Encoding.branch offsets offset op target = .bytes code true) :
    ∃ i, Corresponds d pool offsets (.branch op target) i ∧
      ReadsAt offset Decoded.read code i := by
  obtain ⟨there, close, found⟩ := known
  refine ⟨_, .branch found, ?_⟩
  have far : op.isFar = decide (Format.ofOpcode op = .farBranch) := by
    have all := Opcode.forall_of_all
      (p := fun op => op.isFar == decide (Format.ofOpcode op = .farBranch)) (by decide +kernel) op
    exact beq_iff_eq.mp all
  rw [Encoding.branch, found, far] at written
  dsimp only at written
  rcases writable with format | format
  · have short : ¬ decide (Format.ofOpcode op = .farBranch) = true := by
      rw [format]
      decide
    rw [if_neg short] at written
    split at written
    · rename_i fits
      cases written
      refine readsAt_branch format ?_ (by omega)
      rw [Int16.toInt_ofInt_of_le (by omega) (by omega)]
      omega
    · cases written
  · rw [if_pos (decide_eq_true format)] at written
    cases written
    refine readsAt_farBranch format ?_ (by omega)
    rw [Int32.toInt_ofInt_of_le (by omega) (by omega)]
    omega

/-- The bytes of a writable instruction decode to what corresponds to it. -/
theorem readsAt_encode {x : Instruction} (near : offset ≤ 65535) (short : code.length ≤ 65535)
    (known : ∀ label ∈ x.targets, Known offsets label) (writable : x.Writable d.locals)
    (notLabel : x ≠ .label) (h : d.encode pool offsets offset x = .ok (.bytes code true)) :
    ∃ i, Corresponds d pool offsets x i ∧ ReadsAt offset Decoded.read code i := by
  cases x with
  | label => exact absurd rfl notLabel
  | simple op =>
      cases h
      exact ⟨_, .simple op, readsAt_plain writable⟩
  | immediate op n =>
      rcases writable with ⟨rfl, low, high⟩ | rfl | ⟨rfl, array, rfl⟩
      · cases h
        exact ⟨_, .push n (.inl rfl), readsAt_bytePush low high⟩
      · cases h
        exact ⟨_, .push n (.inr rfl), readsAt_shortPush n⟩
      · cases h
        rw [newArray_code]
        exact ⟨_, .newArray array, readsAt_newArray array⟩
  | constant op entry adjustment =>
      obtain ⟨index, found, same⟩ := bind_eq_ok.mp h
      cases same
      exact constant_read writable found
  | invoke op entry adjustment slots =>
      obtain ⟨index, found, same⟩ := bind_eq_ok.mp h
      cases same
      exact invoke_read writable found
  | multiNewArray entry dimensions =>
      obtain ⟨index, found, same⟩ := bind_eq_ok.mp h
      cases same
      exact ⟨_, .multiNewArray found, readsAt_multiNewArray index dimensions⟩
  | load v kind =>
      obtain ⟨slot, found, same⟩ := bind_eq_ok.mp h
      cases same
      exact load_read writable found
  | store v kind discard =>
      cases discard with
      | true =>
          cases h
          refine ⟨_, .dropped, readsAt_plain ?_⟩
          split <;> decide +kernel
      | false =>
          obtain ⟨slot, found, same⟩ := bind_eq_ok.mp h
          cases same
          exact store_read writable found
  | increment v amount =>
      obtain ⟨slot, found, same⟩ := bind_eq_ok.mp h
      cases same
      exact ⟨_, .increment found, readsAt_increment slot amount⟩
  | branch op target =>
      rw [Draft.encode, Except.ok.injEq] at h
      exact branch_read near (known target (List.mem_singleton.mpr rfl)) writable h
  | switch default cases table =>
      rw [Draft.encode, Except.ok.injEq] at h
      have few : table = false → cases.length < 2 ^ 31 := by
        rintro rfl
        obtain ⟨rfl, -⟩ := Encoding.bytes.inj h
        have counted := @length_le_switchList offsets offset default cases
        omega
      obtain ⟨there, rows, read, found, keys, targets⟩ :=
        switch_read writable (fun label member => (known label member).inReach near) h few
      exact ⟨_, .switch found keys targets, read⟩
  | ret v =>
      obtain ⟨slot, found, same⟩ := bind_eq_ok.mp h
      cases same
      exact ⟨_, .ret found, readsAt_ret slot⟩

theorem Corresponds.supported {x : Instruction} {i : Decoded}
    (h : Corresponds d pool offsets x i) : i ≠ .unsupported := by
  cases h <;> simp

end Instructions

end JvmAssembly
