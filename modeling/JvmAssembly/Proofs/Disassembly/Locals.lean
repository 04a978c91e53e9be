import Mathlib
import JvmAssembly.Proofs.Builder.Creation
import JvmAssembly.Proofs.Disassembly.Replay

/-!
Which local a script gives to an instruction that reads a slot. The value comes along a path of
control, but the local is decided in the order of the code: the two fit exactly if no use of the
slot as another kind of value stands between the instruction that wrote it and the one that reads
it.
-/
namespace JvmAssembly

variable {lab loc : Type}

namespace Decoded

/-- Whether control may go on to the next instruction. -/
def fallsThrough : Decoded → Bool
  | .simple op => !(op.isReturn || op == Opcode.athrow)
  | .branch op _ => !(op == Opcode.goto || op == Opcode.goto_w)
  | .switch _ _ => false
  | .ret _ => false
  | _ => true

/-- The instruction reads the slot as a kind of value. -/
def Reads (slot : UInt16) (kind : LocalKind) : Decoded → Prop
  | .access kind' slot' false => slot' = slot ∧ kind' = kind
  | .increment slot' _ => slot' = slot ∧ LocalKind.int = kind
  | .ret slot' => slot' = slot ∧ LocalKind.reference = kind
  | _ => False

theorem Reads.touches {x : Decoded} {slot : UInt16} {kind : LocalKind} (h : x.Reads slot kind) :
    x.Touches slot kind := by
  cases x with
  | access kind' slot' isStore =>
      cases isStore with
      | true => cases h
      | false =>
          obtain ⟨rfl, rfl⟩ := h
          rfl
  | increment slot' amount =>
      obtain ⟨rfl, rfl⟩ := h
      rfl
  | ret slot' =>
      obtain ⟨rfl, rfl⟩ := h
      rfl
  | _ => cases h

/-- The instruction writes the slot; a wide value also writes the slot after its own. -/
def Writes (slot : UInt16) : Decoded → Prop
  | .access kind first true => first.toNat ≤ slot.toNat ∧ slot.toNat < first.toNat + kind.width
  | .increment there _ => there = slot
  | _ => False

theorem operation_inj {x : Decoded} {use : UInt16 × LocalKind} (touched : x.touched? = some use)
    {v w : Handle loc} (h : (x.operation v : Op (Handle lab) (Handle loc)) = x.operation w) :
    v = w := by
  have same := congrArg Op.local? h
  rw [local?_operation touched, local?_operation touched] at same
  exact Option.some.inj same

end Decoded

namespace Listing

/-- Where control may go from an instruction, by numbers of instructions. -/
inductive Edge (l : Listing) (i : Nat) : Nat → Prop
  | next {x y : Listed} (here : l.instructions[i]? = some x)
      (falls : x.instruction.fallsThrough = true) (there : l.instructions[i + 1]? = some y) :
      Edge l i (i + 1)
  | jump {j : Nat} {x y : Listed} (here : l.instructions[i]? = some x)
      (there : l.instructions[j]? = some y) (target : y.start ∈ x.instruction.targets) : Edge l i j

/-- A path of control from the start to an instruction that reads a slot as a kind of value. -/
structure ReadsAlong (l : Listing) (path : List Nat) (i : Nat) (slot : UInt16) (kind : LocalKind) :
    Prop where
  start : (path ++ [i]).head? = some 0
  edges : (path ++ [i]).IsChain l.Edge
  reads : ∃ x, l.body[i]? = some x ∧ x.Reads slot kind

/-- None of the instructions writes the slot. -/
def Unwritten (l : Listing) (path : List Nat) (slot : UInt16) : Prop :=
  ∀ m ∈ path, ∀ x, l.body[m]? = some x → ¬ x.Writes slot

/-- The last instruction on a path that writes the slot. -/
def LastWrite (l : Listing) (path : List Nat) (slot : UInt16) (j : Nat) : Prop :=
  ∃ before after, path = before ++ j :: after ∧ (∃ x, l.body[j]? = some x ∧ x.Writes slot) ∧
    l.Unwritten after slot

/-- Between two instructions, in the order of the code, the slot has no use as another kind. -/
def Uniform (l : Listing) (slot : UInt16) (kind : LocalKind) (i j : Nat) : Prop :=
  ∀ m x, min i j < m → m < max i j → l.body[m]? = some x → x.Respects slot kind

end Listing

/-- The local that a script gives to an instruction: the one in its operation. -/
def Disassembly.Hands (d : Disassembly lab loc) (l : Listing) (i : Nat) (v : Handle loc) : Prop :=
  ∃ x, l.body[i]? = some x ∧ x.touched?.isSome ∧
    (Op.onLocals d.ops)[SlotUse.count (l.body.take i)]? = some (x.operation v)

/-- At the start of the body a slot holds one of the arguments. -/
def Body.Binds (b : Body) (arguments : List loc) (slot : UInt16) (kind : LocalKind) (a : loc) :
    Prop :=
  ∃ types n type, b.argumentTypes = .ok types ∧ types[n]? = some type ∧
    arguments[n]? = some a ∧ LocalKind.ofType type = kind ∧ parameterSlot types n = slot ∧
    ∀ m < types.length, n < m → parameterSlot types m ≠ slot

namespace SlotMap

variable {typeOf : loc → Except Fault FieldType}

theorem bind_cons {slot : UInt16} {slots out : SlotMap loc} {type : FieldType}
    {types : List FieldType} {a : loc} {arguments : List loc}
    (h : bind typeOf slot slots (type :: types) (a :: arguments) = .ok out) :
    slot.toNat + type.width ≤ 65535 ∧
      bind typeOf (slot + UInt16.ofNat type.width)
        (slots.insert slot (.given a, LocalKind.ofType type)) types arguments = .ok out := by
  unfold bind at h
  split at h
  · cases h
  · dsimp only at h
    split at h
    · cases next : slotAfter slot type with
      | error fault =>
          rw [next] at h
          cases h
      | ok slot' =>
          obtain ⟨fits, rfl⟩ := slotAfter_eq_ok.mp next
          rw [next] at h
          exact ⟨fits, h⟩
    · cases h

/-- A slot where no parameter starts is left alone. -/
theorem bind_absent {slot s : UInt16} {slots out : SlotMap loc} {types : List FieldType}
    {arguments : List loc} (h : bind typeOf slot slots types arguments = .ok out)
    (absent : ∀ m < types.length, slot + parameterSlot types m ≠ s) : out[s]? = slots[s]? := by
  induction types generalizing arguments slot slots with
  | nil =>
      cases h
      rfl
  | cons type types ih =>
      cases arguments with
      | nil =>
          cases h
          rfl
      | cons a arguments =>
          have later := ih (bind_cons h).2 fun m inside => by
            rw [← add_parameterSlot_succ]
            exact absent (m + 1) (Nat.succ_lt_succ inside)
          have other : slot ≠ s := by
            have first := absent 0 (Nat.succ_pos _)
            rwa [add_parameterSlot_zero] at first
          rw [later, Std.HashMap.getElem?_insert, if_neg (by simpa using other)]

/-- The slot of a parameter stands for its argument, unless a later one takes the slot. -/
theorem bind_holds {slot s : UInt16} {slots out : SlotMap loc} {types : List FieldType}
    {arguments : List loc} (h : bind typeOf slot slots types arguments = .ok out) {n : Nat}
    {type : FieldType} {a : loc} (expected : types[n]? = some type) (given : arguments[n]? = some a)
    (here : slot + parameterSlot types n = s)
    (last : ∀ m < types.length, n < m → slot + parameterSlot types m ≠ s) :
    out[s]? = some (.given a, LocalKind.ofType type) := by
  induction types generalizing arguments slot slots n with
  | nil => cases expected
  | cons first types ih =>
      cases arguments with
      | nil => cases given
      | cons argument arguments =>
          have rest := (bind_cons h).2
          cases n with
          | zero =>
              cases expected
              cases given
              rw [add_parameterSlot_zero] at here
              subst here
              rw [bind_absent rest, Std.HashMap.getElem?_insert_self]
              intro m inside
              rw [← add_parameterSlot_succ]
              exact last (m + 1) (Nat.succ_lt_succ inside) (Nat.succ_pos m)
          | succ n =>
              rw [add_parameterSlot_succ] at here
              refine ih rest expected given here ?_
              intro m inside above
              rw [← add_parameterSlot_succ]
              exact last (m + 1) (Nat.succ_lt_succ inside) (Nat.succ_lt_succ above)

/-- Before a script makes any, all locals are arguments. -/
theorem bind_given {slot : UInt16} {slots out : SlotMap loc} {types : List FieldType}
    {arguments : List loc} (h : bind typeOf slot slots types arguments = .ok out)
    (given : ∀ (s : UInt16) (v : Handle loc) (kind : LocalKind), slots[s]? = some (v, kind) →
      ∃ a, v = .given a) :
    ∀ (s : UInt16) (v : Handle loc) (kind : LocalKind), out[s]? = some (v, kind) →
      ∃ a, v = .given a := by
  induction types generalizing arguments slot slots with
  | nil =>
      cases h
      exact given
  | cons type types ih =>
      cases arguments with
      | nil =>
          cases h
          exact given
      | cons a arguments =>
          refine ih (bind_cons h).2 ?_
          intro s v kind found
          rw [Std.HashMap.getElem?_insert] at found
          split at found
          · cases found
            exact ⟨a, rfl⟩
          · exact given s v kind found

end SlotMap

section Replay

variable (b : Body) (k : Constants) (typeOf : loc → Except Fault FieldType) (arguments : List loc)
  (exit : Option lab)

/-- Nothing is handed out, or it is the locals of the slots, which start with the arguments. -/
theorem Body.hands_or :
    (∀ i v, ¬ (b.disassemble k typeOf arguments exit).Hands (.decode b.code) i v) ∨
      ∃ u : SlotUse loc, u.Grounded ∧
        (∀ slot kind a, b.Binds arguments slot kind a →
          u.bound slot = some (.given a, kind)) ∧
        ∀ i v x slot kind, (Listing.decode b.code).body[i]? = some x → x.Touches slot kind →
          (b.disassemble k typeOf arguments exit).Hands (.decode b.code) i v →
          v = (u.after ((Listing.decode b.code).body.take i)).handle slot kind := by
  rcases b.disassemble_onLocals k typeOf arguments exit with
    ⟨empty, -⟩ | ⟨types, slots, rest, found, -, bound, all, -⟩
  · left
    rintro i v ⟨x, -, -, op⟩
    rw [empty] at op
    cases op
  · refine .inr ⟨⟨fun slot => slots[slot]?, 0⟩, ?_, ?_, ?_⟩
    · intro slot v kind there m made
      obtain ⟨a, rfl⟩ := SlotMap.bind_given bound
        (fun s v kind none => by rw [Std.HashMap.getElem?_empty] at none; cases none) slot v kind
        there
      cases made
    · rintro slot kind a ⟨types', n, type, found', expected, given, rfl, here, last⟩
      rw [found] at found'
      cases found'
      refine SlotMap.bind_holds bound expected given (by rw [UInt16.zero_add]; exact here) ?_
      intro m inside above
      rw [UInt16.zero_add]
      exact last m inside above
    · rintro i v x slot kind here touches ⟨y, there, -, op⟩
      rw [here] at there
      cases there
      have known : (Op.onLocals _ ++ rest)[_]? = _ :=
        List.getElem?_append_left (List.getElem?_eq_some_iff.mp op).1
      rw [← all, SlotUse.operations_getElem? _ here touches, op] at known
      exact (Decoded.operation_inj touches (Option.some.inj known)).symm

/-- A script that does not end early gives every instruction on a local one. -/
theorem Body.exists_hands (complete : (b.disassemble k typeOf arguments exit).fault = none)
    {i : Nat} {x : Decoded} (here : (Listing.decode b.code).body[i]? = some x)
    (touched : x.touched?.isSome) :
    ∃ v, (b.disassemble k typeOf arguments exit).Hands (.decode b.code) i v := by
  rcases b.disassemble_onLocals k typeOf arguments exit with
    ⟨-, fault⟩ | ⟨types, slots, rest, -, -, -, all, done⟩
  · exact absurd complete fault
  · obtain ⟨⟨slot, kind⟩, touches⟩ := Option.isSome_iff_exists.mp touched
    rw [done complete, List.append_nil] at all
    have op : (SlotUse.operations _ _ : List (Op (Handle lab) (Handle loc)))[_]? = _ :=
      SlotUse.operations_getElem? ⟨fun slot => slots[slot]?, 0⟩ here touches
    rw [all] at op
    exact ⟨_, x, here, touched, op⟩

/-- The local for a read along a path of control. If the value was stored on the way, it is the
local of that store, and if the value is an argument, it is that argument, exactly if in the order
of the code the slot has no use as another kind in between. -/
theorem Body.hands_along_path {path : List Nat} {i : Nat} {slot : UInt16} {kind : LocalKind}
    (read : (Listing.decode b.code).ReadsAlong path i slot kind) :
    let l := Listing.decode b.code
    let d := b.disassemble k typeOf arguments exit
    (d.fault = none → ∃ v, d.Hands l i v) ∧ ∀ v, d.Hands l i v →
      (∀ j, l.LastWrite path slot j → l.body[j]? = some (.access kind slot true) →
        (d.fault = none → ∃ w, d.Hands l j w) ∧
          ∀ w, d.Hands l j w → (v = w ↔ l.Uniform slot kind j i)) ∧
      ∀ a, l.Unwritten path slot → b.Binds arguments slot kind a →
        (v = .given a ↔ ∀ m < i, ∀ y, l.body[m]? = some y → y.Respects slot kind) := by
  intro l d
  obtain ⟨x, here, reads⟩ := read.reads
  have touched : x.touched?.isSome := Option.isSome_of_eq_some reads.touches
  refine ⟨fun complete => b.exists_hands k typeOf arguments exit complete here touched, ?_⟩
  intro v handed
  rcases b.hands_or k typeOf arguments exit with nothing | ⟨u, grounded, bound, known⟩
  · exact absurd handed (nothing i v)
  · have taken := known i v x slot kind here reads.touches handed
    refine ⟨fun j _ stored => ⟨fun complete => ?_, fun w given => ?_⟩, fun a _ binds => ?_⟩
    · exact b.exists_hands k typeOf arguments exit complete stored rfl
    · rw [taken, known j w _ slot kind stored rfl given]
      exact SlotUse.handle_eq_iff grounded stored rfl here reads.touches
    · rw [taken, SlotUse.handle_after_eq (bound slot kind a binds) (fun m made => by cases made)]
      exact SlotUse.forall_mem_take

end Replay

namespace Body

/-- One slot for an `int` and, on the way that control may pass by, for a `float`. -/
def reusing : Body where
  className := "Reusing"
  descriptor := ⟨[], none⟩
  isStatic := true
  code := [4, 59, 3, 153, 0, 6, 11, 67, 177, 26, 87, 177]
  handlers := []
  lines := []

theorem listing_reusing : Listing.decode reusing.code =
    ⟨[⟨0, 1, .simple 4⟩, ⟨1, 2, .access .int 0 true⟩, ⟨2, 3, .simple 3⟩, ⟨3, 6, .branch 153 9⟩,
      ⟨6, 7, .simple 11⟩, ⟨7, 8, .access .float 0 true⟩, ⟨8, 9, .simple 177⟩,
      ⟨9, 10, .access .int 0 false⟩, ⟨10, 11, .simple 87⟩, ⟨11, 12, .simple 177⟩], []⟩ := by
  decide +kernel

/-- The script of the body, with no constants and no arguments. -/
def reusingScript : Disassembly Unit Nat :=
  reusing.disassemble ⟨.empty, #[]⟩ (fun _ => .ok .int) [] none

theorem fault_reusingScript : reusingScript.fault = none := by
  refine fault_eq_none (show reusing.argumentTypes = .ok [] from rfl) rfl rfl ?_
  refine Writing.total_listing _ _ reusing _ (List.forall_mem_nil _) ?_
  rw [listing_reusing]
  simp only [Listing.body, List.map_cons, List.map_nil, List.forall_mem_cons]
  have jump : ∀ fixed, Writing.Total
      (Writing.instruction ⟨.empty, #[]⟩ reusing.className fixed none (.branch 153 9) :
        Writing Unit Nat Unit) :=
    fun _ => (Writing.total_labelAt 9).bind fun _ _ => ⟨(), rfl⟩
  exact ⟨Writing.total_emit _, Writing.total_of_touches _ _ _ _ rfl, Writing.total_emit _,
    jump _, Writing.total_emit _, Writing.total_of_touches _ _ _ _ rfl, Writing.total_emit _,
    Writing.total_of_touches _ _ _ _ rfl, Writing.total_emit _, Writing.total_emit _,
    List.forall_mem_nil _⟩

theorem onLocals_reusingScript : Op.onLocals reusingScript.ops =
    [.storeLocal (.made 0), .storeLocal (.made 1), .loadLocal (.made 2)] := by
  rcases reusing.disassemble_onLocals ⟨.empty, #[]⟩ (fun _ : Nat => .ok .int) []
    (none : Option Unit) with ⟨-, fault⟩ | ⟨types, slots, rest, found, -, bound, all, done⟩
  · exact absurd fault_reusingScript fault
  · cases found
    cases bound
    rw [done fault_reusingScript, List.append_nil, listing_reusing] at all
    rw [reusingScript, ← all]
    have empty : (fun slot : UInt16 => (∅ : SlotMap Nat)[slot]?) = fun _ => none :=
      funext fun _ => Std.HashMap.getElem?_empty
    rw [empty]
    rfl

theorem readsAlong_reusing :
    (Listing.decode reusing.code).ReadsAlong [0, 1, 2, 3] 7 0 .int := by
  rw [listing_reusing]
  refine ⟨rfl, ?_, _, rfl, rfl, rfl⟩
  simp only [List.cons_append, List.nil_append, List.isChain_cons_cons, List.isChain_singleton,
    and_true]
  exact ⟨.next rfl rfl rfl, .next rfl rfl rfl, .next rfl rfl rfl,
    .jump rfl rfl (List.mem_singleton_self 9)⟩

theorem lastWrite_reusing : (Listing.decode reusing.code).LastWrite [0, 1, 2, 3] 0 1 := by
  rw [listing_reusing]
  refine ⟨[0], [2, 3], rfl, ⟨_, rfl, Nat.le_refl _, Nat.lt_succ_self _⟩, ?_⟩
  rintro m member x found
  fin_cases member <;> cases found <;> exact not_false

theorem stores_reusing :
    (Listing.decode reusing.code).body[1]? = some (.access .int 0 true) := by
  rw [listing_reusing]
  rfl

theorem hands_store_reusing : reusingScript.Hands (.decode reusing.code) 1 (.made 0) := by
  rw [listing_reusing]
  exact ⟨_, rfl, rfl, by rw [onLocals_reusingScript]; rfl⟩

theorem hands_read_reusing : reusingScript.Hands (.decode reusing.code) 7 (.made 2) := by
  rw [listing_reusing]
  exact ⟨_, rfl, rfl, by rw [onLocals_reusingScript]; rfl⟩

/-- The local of a store and the local of the read of its value can be two, although the body
decodes without a report and its script is complete. -/
theorem hands_apart_reusing :
    (Listing.decode reusing.code).reports = [] ∧ reusingScript.fault = none ∧
      (Listing.decode reusing.code).ReadsAlong [0, 1, 2, 3] 7 0 .int ∧
      (Listing.decode reusing.code).LastWrite [0, 1, 2, 3] 0 1 ∧
      (Listing.decode reusing.code).body[1]? = some (.access .int 0 true) ∧
      reusingScript.Hands (.decode reusing.code) 1 (.made 0) ∧
      reusingScript.Hands (.decode reusing.code) 7 (.made 2) := by
  refine ⟨?_, fault_reusingScript, readsAlong_reusing, lastWrite_reusing, stores_reusing,
    hands_store_reusing, hands_read_reusing⟩
  rw [listing_reusing]

theorem hands_along_path_reusing :
    (Listing.decode reusing.code).ReadsAlong [0, 1, 2, 3] 7 0 .int ∧
      (Listing.decode reusing.code).LastWrite [0, 1, 2, 3] 0 1 ∧
      (Listing.decode reusing.code).body[1]? = some (.access .int 0 true) ∧
      reusingScript.Hands (.decode reusing.code) 1 (.made 0) ∧
      reusingScript.Hands (.decode reusing.code) 7 (.made 2) ∧
      ((.made 2 : Handle Nat) = .made 0 ↔
        (Listing.decode reusing.code).Uniform 0 .int 1 7) := by
  have along := hands_along_path reusing ⟨.empty, #[]⟩ (fun _ : Nat => .ok .int) []
    (none : Option Unit) readsAlong_reusing
  have apart := (along.2 _ hands_read_reusing).1 1 lastWrite_reusing stores_reusing
  exact ⟨readsAlong_reusing, lastWrite_reusing, stores_reusing, hands_store_reusing,
    hands_read_reusing, apart.2 _ hands_store_reusing⟩

end Body

end JvmAssembly
