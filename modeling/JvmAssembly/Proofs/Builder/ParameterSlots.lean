import Mathlib
import JvmAssembly.Proofs.Builder.Rebuilding
import JvmAssembly.Proofs.Descriptor.Grammar

/-!
Slots of the receiver and the parameters, against the exact sums of widths. Slots are sixteen-bit
words, and a descriptor may have any number of parameters: a builder and a disassembler count as
they should as long as the sum of all widths is such a word, and refuse to go on otherwise.
-/
namespace JvmAssembly

namespace MethodDescriptor

/-- The slots before an argument. -/
def argumentStart (d : MethodDescriptor) (isStatic : Bool) (n : Nat) : Nat :=
  ((d.argumentWidths isStatic).take n).sum

variable {d : MethodDescriptor} {isStatic : Bool}

theorem argumentWidths_pos : ∀ w ∈ d.argumentWidths isStatic, 0 < w := by
  intro w member
  rcases List.mem_append.mp member with receiver | parameter
  · cases isStatic with
    | true => cases receiver
    | false =>
      rw [List.mem_singleton.mp receiver]
      exact Nat.one_pos
  · obtain ⟨type, -, rfl⟩ := List.mem_map.mp parameter
    exact type.width_pos

/-- Later arguments start in later slots. -/
theorem argumentStart_lt {n m : Nat} (before : n < m)
    (inside : n < (d.argumentWidths isStatic).length) :
    d.argumentStart isStatic n < d.argumentStart isStatic m := by
  have next : ((d.argumentWidths isStatic).take (n + 1)).sum =
      d.argumentStart isStatic n + (d.argumentWidths isStatic)[n] := by
    rw [List.sum_take_succ _ _ inside]
    rfl
  have more : 0 < (d.argumentWidths isStatic)[n] := argumentWidths_pos _ (List.getElem_mem inside)
  have rest : ((d.argumentWidths isStatic).take (n + 1)).sum ≤ d.argumentStart isStatic m :=
    (List.take_sublist_take_left before).sum_le_sum fun _ _ => Nat.zero_le _
  omega

theorem argumentStart_le (n : Nat) : d.argumentStart isStatic n ≤ d.parameterSlots (!isStatic) := by
  rw [← sum_argumentWidths]
  exact (List.take_sublist n _).sum_le_sum fun _ _ => Nat.zero_le _

end MethodDescriptor

/-- Types of arguments are as wide as the descriptor says. -/
def Widths (types : List FieldType) (d : MethodDescriptor) (isStatic : Bool) : Prop :=
  types.map (·.width) = d.argumentWidths isStatic

theorem Builder.widths_argumentTypes (owner : BinaryName) (d : MethodDescriptor)
    (isStatic : Bool) : Widths (argumentTypes owner d isStatic) d isStatic := by
  cases isStatic <;> rfl

theorem Body.widths_argumentTypes {b : Body} {types : List FieldType}
    (known : b.argumentTypes = .ok types) : Widths types b.descriptor b.isStatic := by
  unfold Body.argumentTypes at known
  unfold Widths MethodDescriptor.argumentWidths
  by_cases isStatic : b.isStatic = true
  · rw [if_pos isStatic] at known ⊢
    cases known
    rfl
  · rw [if_neg isStatic] at known ⊢
    cases name : BinaryName.ofText b.className with
    | error fault =>
      rw [name] at known
      cases known
    | ok name =>
      rw [name] at known
      cases known
      rfl

namespace Widths

variable {types : List FieldType} {d : MethodDescriptor} {isStatic : Bool}

theorem length_eq (widths : Widths types d isStatic) :
    types.length = (d.argumentWidths isStatic).length := by
  rw [← widths, List.length_map]

theorem sum_eq (widths : Widths types d isStatic) :
    (types.map (·.width)).sum = d.parameterSlots (!isStatic) := by
  rw [widths, MethodDescriptor.sum_argumentWidths]

/-- Where all slots have numbers, an argument has the number of the slots before it. -/
theorem toNat_parameterSlot (widths : Widths types d isStatic)
    (narrow : d.parameterSlots (!isStatic) ≤ 65535) (n : Nat) :
    (parameterSlot types n).toNat = d.argumentStart isStatic n := by
  have small := Nat.le_trans (d.argumentStart_le n) narrow
  rw [parameterSlot, List.map_take, widths, UInt16.toNat_ofNat']
  exact Nat.mod_eq_of_lt (Nat.lt_succ_of_le small)

end Widths

namespace SlotMap

variable {loc : Type} {typeOf : loc → Except Fault FieldType} {types : List FieldType}
  {arguments : List loc} {slots : SlotMap loc} {d : MethodDescriptor} {isStatic : Bool}

/-- The slots of a map are those where arguments start, and each stands for its argument. -/
def Exact (slots : SlotMap loc) (d : MethodDescriptor) (isStatic : Bool) (types : List FieldType)
    (arguments : List loc) : Prop :=
  ∀ (s : UInt16) (v : Handle loc) (kind : LocalKind), slots[s]? = some (v, kind) ↔
    ∃ n type a, types[n]? = some type ∧ arguments[n]? = some a ∧
      d.argumentStart isStatic n = s.toNat ∧ v = .given a ∧ kind = LocalKind.ofType type

/-- Only arguments that there are slots for can be bound. -/
theorem sum_le_of_bind {slot : UInt16} {before : SlotMap loc}
    (length : arguments.length = types.length)
    (bound : bind typeOf slot before types arguments = .ok slots) :
    slot.toNat + (types.map (·.width)).sum ≤ 65535 := by
  induction types generalizing arguments slot before with
  | nil => exact Nat.le_of_lt_succ slot.toNat_lt
  | cons type types ih =>
    cases arguments with
    | nil => cases length
    | cons a arguments =>
      obtain ⟨fits, later⟩ := bind_cons bound
      have rest := ih (Nat.succ.inj length) later
      rwa [toNat_add_width fits, Nat.add_assoc, ← List.sum_cons, ← List.map_cons] at rest

/-- Arguments of the expected kinds are refused for want of slots. -/
theorem bind_eq_slotOverflow (suits : List.Forall₂ (Suits typeOf) types arguments) {slot : UInt16}
    (past : 65535 < slot.toNat + (types.map (·.width)).sum) (before : SlotMap loc) :
    bind typeOf slot before types arguments = .error .slotOverflow := by
  induction suits generalizing slot before with
  | nil => exact absurd past (Nat.not_lt.mpr (Nat.le_of_lt_succ slot.toNat_lt))
  | @cons type a types arguments first _ ih =>
    rw [List.map_cons, List.sum_cons, ← Nat.add_assoc] at past
    rw [bind_of_suits first]
    rcases Nat.lt_or_ge 65535 (slot.toNat + type.width) with here | fits
    · rw [slotAfter_eq_error here]
    · rw [← toNat_add_width fits] at past
      rw [slotAfter_eq_ok.mpr ⟨fits, rfl⟩]
      exact ih past _

/-- Arguments that start at the right slots are bound to these. -/
theorem exact_bind (widths : Widths types d isStatic) (length : arguments.length = types.length)
    (bound : bind typeOf 0 ∅ types arguments = .ok slots)
    (narrow : d.parameterSlots (!isStatic) ≤ 65535) : slots.Exact d isStatic types arguments := by
  have start := widths.toNat_parameterSlot narrow
  have holds : ∀ (n : Nat) type a (s : UInt16), types[n]? = some type → arguments[n]? = some a →
      d.argumentStart isStatic n = s.toNat →
      slots[s]? = some (.given a, LocalKind.ofType type) := by
    intro n type a s expected given here
    have inside := (List.getElem?_eq_some_iff.mp expected).1
    have own : parameterSlot types n = s := UInt16.toNat_inj.mp ((start n).trans here)
    refine bind_holds bound expected given ((UInt16.zero_add _).trans own) ?_
    intro m within above same
    rw [UInt16.zero_add] at same
    have apart := MethodDescriptor.argumentStart_lt above (widths.length_eq ▸ inside)
    rw [← start m, ← start n, same, own] at apart
    exact absurd apart (Nat.lt_irrefl _)
  intro s v kind
  constructor
  · intro found
    by_contra none
    have absent : ∀ n < types.length, 0 + parameterSlot types n ≠ s := by
      intro n inside same
      rw [UInt16.zero_add] at same
      have given := List.getElem?_eq_getElem (length ▸ inside)
      have expected := List.getElem?_eq_getElem inside
      have here : d.argumentStart isStatic n = s.toNat := by rw [← start n, same]
      rw [holds n _ _ s expected given here] at found
      cases found
      exact none ⟨n, _, _, expected, given, here, rfl, rfl⟩
    rw [bind_absent bound absent, Std.HashMap.getElem?_empty] at found
    cases found
  · rintro ⟨n, type, a, expected, given, here, rfl, rfl⟩
    exact holds n type a s expected given here

end SlotMap

/-- A body whose arguments take too many slots cannot be disassembled, even for arguments of the
expected types. -/
theorem Body.fault_of_overflow {d : MethodDescriptor} (past : 65535 < d.parameterSlots false)
    (className : String) (code : Bytes) (k : Constants) (exit : Option Label) :
    (Body.disassemble ⟨className, d, true, code, [], []⟩ k (fun type => .ok type) d.parameters
      exit).fault = some .slotOverflow := by
  have suits : List.Forall₂ (SlotMap.Suits fun type => .ok type) d.parameters d.parameters :=
    List.forall₂_same.mpr fun type _ => ⟨type, rfl, rfl⟩
  have sum : (0 : UInt16).toNat + (d.parameters.map (·.width)).sum = d.parameterSlots false := by
    rw [UInt16.toNat_zero, Nat.zero_add]
    exact @MethodDescriptor.sum_argumentWidths d true
  have types : Body.argumentTypes ⟨className, d, true, code, [], []⟩ = .ok d.parameters := rfl
  rw [Body.disassemble, types]
  dsimp only
  rw [if_neg (not_not.mpr rfl), SlotMap.bind_eq_slotOverflow suits (sum ▸ past)]

namespace Builder

variable {id : Nat} {owner : BinaryName} {descriptor : MethodDescriptor} {isStatic : Bool}

theorem length_arguments_initial : (initial id owner descriptor isStatic).arguments.length =
    (argumentTypes owner descriptor isStatic).length := by
  rw [arguments_initial, List.length_map, List.length_range]

/-- Where a new builder pins an argument. -/
theorem pinned_initial {n : Nat} (inside : n < (descriptor.argumentWidths isStatic).length) :
    ∃ v info, (initial id owner descriptor isStatic).arguments[n]? = some v ∧
      (initial id owner descriptor isStatic).draft.localInfo v = .ok info ∧
      (argumentTypes owner descriptor isStatic)[n]? = some info.type ∧
      info.fixedSlot = some (parameterSlot (argumentTypes owner descriptor isStatic) n) := by
  rw [← (widths_argumentTypes owner descriptor isStatic).length_eq] at inside
  obtain ⟨info, stored, -⟩ := exists_argumentLocals (List.getElem?_eq_getElem inside)
  obtain ⟨type, fixed, -⟩ := getElem?_argumentLocals stored
  refine ⟨⟨id, n⟩, info, ?_, ?_, type, fixed⟩
  · rw [arguments_initial, List.getElem?_map, List.getElem?_range inside]
    rfl
  · rw [Draft.localInfo, getElem?_locals_initial, stored]
    exact if_pos rfl

theorem reservedSlots_initial (narrow : descriptor.parameterSlots (!isStatic) ≤ 65535) :
    (initial id owner descriptor isStatic).draft.reservedSlots.toNat =
      descriptor.parameterSlots (!isStatic) := by
  have widths := widths_argumentTypes owner descriptor isStatic
  refine (widths.toNat_parameterSlot narrow _).trans ?_
  rw [MethodDescriptor.argumentStart, widths.length_eq, List.take_length,
    MethodDescriptor.sum_argumentWidths]

/-- If the widths of all arguments add up to a number of slots that there are, then a builder pins
each argument to the slot where it starts and reserves as many slots as they take, and the arguments
are bound to these slots. Else neither is done: there is no builder, and no body takes the
arguments. -/
theorem parameterSlots_exact (id : Nat) (owner : BinaryName) (d : MethodDescriptor)
    (isStatic : Bool) :
    (d.parameterSlots (!isStatic) ≤ 65535 → ∃ b slots, create id owner d isStatic = .ok b ∧
      (∀ n < (d.argumentWidths isStatic).length, ∃ v info slot, b.arguments[n]? = some v ∧
        b.draft.localInfo v = .ok info ∧ (argumentTypes owner d isStatic)[n]? = some info.type ∧
        info.fixedSlot = some slot ∧ slot.toNat = d.argumentStart isStatic n) ∧
      b.draft.reservedSlots.toNat = d.parameterSlots (!isStatic) ∧
      SlotMap.bind (fun v => (·.type) <$> b.draft.localInfo v) 0 ∅ (argumentTypes owner d isStatic)
        b.arguments = .ok slots ∧
      slots.Exact d isStatic (argumentTypes owner d isStatic) b.arguments) ∧
    (65535 < d.parameterSlots (!isStatic) → create id owner d isStatic = .error .slotOverflow) ∧
    ∀ (body : Body) (types : List FieldType) (loc : Type) (typeOf : loc → Except Fault FieldType)
      (arguments : List loc), body.descriptor = d → body.isStatic = isStatic →
      body.argumentTypes = .ok types → types.length = arguments.length →
      (∀ slots, SlotMap.bind typeOf 0 ∅ types arguments = .ok slots →
        d.parameterSlots (!isStatic) ≤ 65535 ∧ slots.Exact d isStatic types arguments) ∧
      (List.Forall₂ (SlotMap.Suits typeOf) types arguments →
        65535 < d.parameterSlots (!isStatic) →
        SlotMap.bind typeOf 0 ∅ types arguments = .error .slotOverflow) := by
  refine ⟨fun narrow => ?_, fun past => ?_, ?_⟩
  · have widths := widths_argumentTypes owner d isStatic
    obtain ⟨slots, bound⟩ := @exists_bind_initial id owner d isStatic narrow
    refine ⟨_, slots, create_eq_ok.mpr ⟨narrow, rfl⟩, fun n inside => ?_,
      reservedSlots_initial narrow, bound,
      SlotMap.exact_bind widths length_arguments_initial bound narrow⟩
    obtain ⟨v, info, given, known, type, fixed⟩ := @pinned_initial id owner d isStatic n inside
    exact ⟨v, info, _, given, known, type, fixed, widths.toNat_parameterSlot narrow n⟩
  · exact create_eq_slotOverflow past
  · rintro body types loc typeOf arguments rfl rfl known counted
    have widths := Body.widths_argumentTypes known
    have zero : (0 : UInt16).toNat + (types.map (·.width)).sum =
        body.descriptor.parameterSlots (!body.isStatic) := by
      rw [UInt16.toNat_zero, Nat.zero_add, widths.sum_eq]
    constructor
    · intro slots bound
      have narrow := SlotMap.sum_le_of_bind counted.symm bound
      rw [zero] at narrow
      exact ⟨narrow, SlotMap.exact_bind widths counted.symm bound narrow⟩
    · intro suits past
      exact SlotMap.bind_eq_slotOverflow suits (zero ▸ past) ∅

/-- Takes a number of longs. -/
def longs (n : Nat) : MethodDescriptor := ⟨List.replicate n (.base .long), none⟩

theorem parameterSlots_longs (n : Nat) : (longs n).parameterSlots false = n * 2 := by
  refine (@MethodDescriptor.sum_argumentWidths (longs n) true).symm.trans ?_
  rw [MethodDescriptor.argumentWidths, longs, List.map_replicate, List.sum_append,
    List.sum_replicate]
  exact Nat.zero_add _

/-- A long takes two slots, so that the parameter after it is bound to the third. As many longs as
there are pairs of slots are too many by one slot. -/
theorem parameterSlots_exact_long :
    MethodDescriptor.parameterSlots ⟨[.base .long, .base .int], none⟩ false ≤ 65535 ∧
    (∃ b slots, create 0 .object ⟨[.base .long, .base .int], none⟩ true = .ok b ∧
      b.draft.reservedSlots.toNat = 3 ∧
      SlotMap.bind (fun v => (·.type) <$> b.draft.localInfo v) 0 ∅ [.base .long, .base .int]
        b.arguments = .ok slots ∧
      slots[(2 : UInt16)]? = some (.given ⟨0, 1⟩, .int)) ∧
    65535 < (longs 32768).parameterSlots false ∧
    create 0 .object (longs 32768) true = .error .slotOverflow := by
  have narrow :
      MethodDescriptor.parameterSlots ⟨[.base .long, .base .int], none⟩ false ≤ 65535 := by decide
  have past : 65535 < (longs 32768).parameterSlots false := by
    rw [parameterSlots_longs]
    decide
  obtain ⟨b, slots, created, -, reserved, bound, exact⟩ :=
    (parameterSlots_exact 0 .object ⟨[.base .long, .base .int], none⟩ true).1 narrow
  refine ⟨narrow, ⟨b, slots, created, reserved, bound, ?_⟩, past,
    (parameterSlots_exact 0 .object (longs 32768) true).2.1 past⟩
  obtain ⟨-, rfl⟩ := create_eq_ok.mp created
  exact (exact 2 _ _).mpr ⟨1, _, _, rfl, rfl, rfl, rfl, rfl⟩

/-- A descriptor with more longs than there are pairs of slots is well-formed, but there is no
builder for it, and a body with that descriptor cannot be disassembled. -/
theorem parameterSlots_overflow : MethodDescriptor.parse (longs 32769).render = .ok (longs 32769) ∧
    (longs 32769).parameterSlots false = 65538 ∧
    create 0 .object (longs 32769) true = .error .slotOverflow ∧
    ∀ (className : String) (code : Bytes) (k : Constants) (exit : Option Label),
      (Body.disassemble ⟨className, longs 32769, true, code, [], []⟩ k (fun type => .ok type)
        (longs 32769).parameters exit).fault = some .slotOverflow := by
  have total : (longs 32769).parameterSlots false = 65538 := parameterSlots_longs 32769
  have past : 65535 < (longs 32769).parameterSlots false := by
    rw [total]
    decide
  exact ⟨MethodDescriptor.parse_eq_ok.mpr rfl, total, create_eq_slotOverflow past,
    Body.fault_of_overflow past⟩

end Builder

end JvmAssembly
