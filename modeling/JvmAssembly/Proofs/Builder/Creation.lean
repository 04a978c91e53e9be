import Mathlib
import JvmAssembly.Builder.Basic
import JvmAssembly.Proofs.Outcome

/-!
A new builder has its receiver and its parameters in the slots of a call, one behind the other.
There is no builder for a method whose arguments take more slots than there are.
-/
namespace JvmAssembly

theorem FieldType.width_pos (t : FieldType) : 0 < t.width := by
  cases t with
  | base b => cases b <;> decide
  | ref r => exact Nat.one_pos

section Slots

variable {slot next : UInt16} {type : FieldType}

theorem slotAfter_eq_ok : slotAfter slot type = .ok next ↔
    slot.toNat + type.width ≤ 65535 ∧ next = slot + UInt16.ofNat type.width := by
  unfold slotAfter
  split
  case isTrue fits => simp [fits, eq_comm]
  case isFalse past => simp [past]

theorem slotAfter_eq_error (past : 65535 < slot.toNat + type.width) :
    slotAfter slot type = .error .slotOverflow :=
  if_neg (Nat.not_le.mpr past)

theorem toNat_add_width (fits : slot.toNat + type.width ≤ 65535) :
    (slot + UInt16.ofNat type.width).toNat = slot.toNat + type.width := by
  rw [UInt16.toNat_add, UInt16.toNat_ofNat', Nat.add_mod_mod, Nat.mod_eq_of_lt]
  exact Nat.lt_succ_of_le fits

end Slots

/-- The first slot of a parameter. -/
def parameterSlot (types : List FieldType) (n : Nat) : UInt16 :=
  UInt16.ofNat ((types.take n).map (·.width)).sum

theorem parameterSlot_succ (type : FieldType) (types : List FieldType) (n : Nat) :
    parameterSlot (type :: types) (n + 1) = UInt16.ofNat type.width + parameterSlot types n := by
  rw [parameterSlot, parameterSlot, List.take_succ_cons, List.map_cons, List.sum_cons,
    UInt16.ofNat_add]

theorem add_parameterSlot_zero (slot : UInt16) (types : List FieldType) :
    slot + parameterSlot types 0 = slot :=
  UInt16.add_zero slot

theorem add_parameterSlot_succ (slot : UInt16) (type : FieldType) (types : List FieldType)
    (n : Nat) : slot + parameterSlot (type :: types) (n + 1) =
      slot + UInt16.ofNat type.width + parameterSlot types n := by
  rw [parameterSlot_succ, UInt16.add_assoc]

namespace MethodDescriptor

/-- Widths of the receiver, if there is one, and of the parameters. -/
def argumentWidths (d : MethodDescriptor) (isStatic : Bool) : List Nat :=
  (if isStatic then [] else [1]) ++ d.parameters.map (·.width)

theorem sum_argumentWidths {d : MethodDescriptor} {isStatic : Bool} :
    (d.argumentWidths isStatic).sum = d.parameterSlots (!isStatic) := by
  have sum : (d.parameters.map (·.width)).sum = d.parameters.foldr (fun t n => t.width + n) 0 := by
    rw [List.sum_eq_foldr, List.foldr_map]
  rw [argumentWidths, List.sum_append, parameterSlots, sum, Nat.add_comm]
  cases isStatic <;> rfl

end MethodDescriptor

namespace Builder

/-- The locals of parameters from a slot on. -/
def parameterLocals (slot : UInt16) : List FieldType → List LocalInfo
  | [] => []
  | t :: ts => ⟨none, t, some slot, some slot⟩ :: parameterLocals (slot + UInt16.ofNat t.width) ts

theorem length_parameterLocals (slot : UInt16) (types : List FieldType) :
    (parameterLocals slot types).length = types.length := by
  induction types generalizing slot with
  | nil => rfl
  | cons type types ih => rw [parameterLocals, List.length_cons, ih, List.length_cons]

theorem getElem?_parameterLocals {slot : UInt16} {types : List FieldType} {n : Nat}
    {info : LocalInfo} (found : (parameterLocals slot types)[n]? = some info) :
    types[n]? = some info.type ∧ info.fixedSlot = some (slot + parameterSlot types n) ∧
      info.slot = info.fixedSlot := by
  induction types generalizing slot n with
  | nil => cases found
  | cons type types ih =>
      cases n with
      | zero =>
          cases found
          exact ⟨rfl, congrArg some (add_parameterSlot_zero slot _).symm, rfl⟩
      | succ n =>
          rw [add_parameterSlot_succ]
          exact ih found

/-- Parameters are declared one behind the other, unless their widths add up to more than there are
slots. -/
theorem declare_eq (types : List FieldType) (done : Array Local) (slot : UInt16) (d : Draft) :
    declare done slot types d =
      if slot.toNat + (types.map (·.width)).sum ≤ 65535 then
        .ok ((done.toList ++ (List.range types.length).map fun i => ⟨d.id, d.locals.size + i⟩,
            slot + parameterSlot types types.length),
          { d with locals := d.locals ++ (parameterLocals slot types).toArray })
      else .error .slotOverflow := by
  induction types generalizing done slot d with
  | nil =>
      have small : slot.toNat ≤ 65535 := Nat.le_of_lt_succ slot.toNat_lt
      simp [small, declare, parameterLocals, parameterSlot]
  | cons type types ih =>
      rw [declare, List.map_cons, List.sum_cons, ← Nat.add_assoc]
      dsimp only [Draft.createLocal]
      rcases Nat.lt_or_ge 65535 (slot.toNat + type.width) with past | fits
      · rw [slotAfter_eq_error past, if_neg (by omega)]
      · rw [slotAfter_eq_ok.mpr ⟨fits, rfl⟩]
        dsimp only
        rw [ih, toNat_add_width fits, List.length_cons, add_parameterSlot_succ,
          List.range_succ_eq_map, parameterLocals]
        simp [Function.comp_def, Nat.add_assoc, Nat.add_comm 1]

/-- What declaring a local preserves, declaring parameters preserves. -/
theorem declare_preserves {P : Draft → Prop}
    (step : ∀ d name type slot, P d → P (d.createLocal name type slot).2) {types : List FieldType}
    {done : Array Local} {slot : UInt16} {d : Draft} {r : (List Local × UInt16) × Draft}
    (made : declare done slot types d = .ok r) (start : P d) : P r.2 := by
  induction types generalizing done slot d with
  | nil =>
      cases made
      exact start
  | cons type types ih =>
      rw [declare] at made
      cases next : slotAfter slot type with
      | error fault =>
          rw [next] at made
          cases made
      | ok slot' =>
          rw [next] at made
          exact ih made (step d none type (some slot) start)

variable {id : Nat} {owner : BinaryName} {descriptor : MethodDescriptor} {isStatic : Bool}

theorem create_static : create id owner descriptor true =
    declare #[] 0 descriptor.parameters (Draft.empty id) >>= fun r =>
      .ok (Builder.mk (r.2.reserveSlots r.1.2) owner none r.1.1) :=
  rfl

theorem create_instance : create id owner descriptor false =
    declare #[] 1 descriptor.parameters
      ((Draft.empty id).createLocal (some "this") (.object owner) (some 0)).2 >>= fun r =>
      .ok (Builder.mk (r.2.reserveSlots r.1.2) owner (some ⟨id, 0⟩) r.1.1) :=
  rfl

/-- The draft of a new builder is made from an empty one by declaring locals and reserving their
slots. -/
theorem create_preserves {P : Draft → Prop} {b : Builder}
    (created : create id owner descriptor isStatic = .ok b) (start : P (.empty id))
    (step : ∀ d name type slot, P d → P (d.createLocal name type slot).2)
    (reserve : ∀ d slots, P d → P (d.reserveSlots slots)) : P b.draft := by
  cases isStatic with
  | true =>
      obtain ⟨r, made, done⟩ := bind_eq_ok.mp (create_static.symm.trans created)
      cases done
      exact reserve _ _ (declare_preserves step made start)
  | false =>
      obtain ⟨r, made, done⟩ := bind_eq_ok.mp (create_instance.symm.trans created)
      cases done
      exact reserve _ _ (declare_preserves step made (step _ _ _ _ start))

/-- Types of the receiver and the parameters. -/
def argumentTypes (owner : BinaryName) (descriptor : MethodDescriptor) (isStatic : Bool) :
    List FieldType :=
  if isStatic then descriptor.parameters else .object owner :: descriptor.parameters

/-- Locals of the receiver and the parameters. -/
def argumentLocals (owner : BinaryName) (descriptor : MethodDescriptor) (isStatic : Bool) :
    List LocalInfo :=
  if isStatic then parameterLocals 0 descriptor.parameters
  else ⟨some "this", .object owner, some 0, some 0⟩ :: parameterLocals 1 descriptor.parameters

theorem length_argumentLocals : (argumentLocals owner descriptor isStatic).length =
    (argumentTypes owner descriptor isStatic).length := by
  cases isStatic <;> simp [argumentLocals, argumentTypes, length_parameterLocals]

theorem getElem?_argumentLocals {n : Nat} {info : LocalInfo}
    (found : (argumentLocals owner descriptor isStatic)[n]? = some info) :
    (argumentTypes owner descriptor isStatic)[n]? = some info.type ∧
      info.fixedSlot = some (parameterSlot (argumentTypes owner descriptor isStatic) n) ∧
      info.slot = info.fixedSlot := by
  cases isStatic with
  | true =>
      have known := getElem?_parameterLocals found
      rwa [UInt16.zero_add] at known
  | false =>
      cases n with
      | zero =>
          cases found
          exact ⟨rfl, rfl, rfl⟩
      | succ n =>
          have known := getElem?_parameterLocals found
          unfold argumentTypes
          rw [if_neg Bool.false_ne_true, parameterSlot_succ]
          exact known

theorem exists_argumentLocals {n : Nat} {type : FieldType}
    (expected : (argumentTypes owner descriptor isStatic)[n]? = some type) :
    ∃ info, (argumentLocals owner descriptor isStatic)[n]? = some info ∧ info.type = type := by
  have inside := (List.getElem?_eq_some_iff.mp expected).1
  rw [← length_argumentLocals] at inside
  have found := List.getElem?_eq_getElem inside
  exact ⟨_, found, Option.some.inj ((getElem?_argumentLocals found).1.symm.trans expected)⟩

/-- The builder of a method that has slots for all of its arguments. -/
def initial (id : Nat) (owner : BinaryName) (descriptor : MethodDescriptor) (isStatic : Bool) :
    Builder where
  draft :=
    { Draft.empty id with
      locals := (argumentLocals owner descriptor isStatic).toArray
      reservedSlots := parameterSlot (argumentTypes owner descriptor isStatic)
        (argumentTypes owner descriptor isStatic).length }
  owner := owner
  receiver := if isStatic then none else some ⟨id, 0⟩
  parameters := (List.range descriptor.parameters.length).map fun n =>
    ⟨id, if isStatic then n else n + 1⟩

theorem create_eq : create id owner descriptor isStatic =
    if descriptor.parameterSlots (!isStatic) ≤ 65535 then .ok (initial id owner descriptor isStatic)
    else .error .slotOverflow := by
  cases isStatic with
  | true =>
      have total : descriptor.parameterSlots false = (descriptor.parameters.map (·.width)).sum :=
        (@MethodDescriptor.sum_argumentWidths descriptor true).symm
      rw [create_static, declare_eq, UInt16.zero_add, UInt16.toNat_zero, Nat.zero_add,
        Bool.not_true, total]
      split
      · simp [Bind.bind, Except.bind, initial, argumentLocals, argumentTypes, Draft.reserveSlots,
          Draft.empty]
      · rfl
  | false =>
      have total : descriptor.parameterSlots true =
          1 + (descriptor.parameters.map (·.width)).sum :=
        (@MethodDescriptor.sum_argumentWidths descriptor false).symm
      have next : 1 + parameterSlot descriptor.parameters descriptor.parameters.length =
          parameterSlot (.object owner :: descriptor.parameters)
            (descriptor.parameters.length + 1) :=
        (parameterSlot_succ (.object owner) descriptor.parameters _).symm
      rw [create_instance, declare_eq, next, UInt16.toNat_one, Bool.not_false, total]
      split
      · simp [Bind.bind, Except.bind, initial, argumentLocals, argumentTypes, Draft.reserveSlots,
          Draft.empty, Draft.createLocal, Nat.add_comm 1]
      · rfl

theorem create_eq_ok {b : Builder} : create id owner descriptor isStatic = .ok b ↔
    descriptor.parameterSlots (!isStatic) ≤ 65535 ∧ b = initial id owner descriptor isStatic := by
  rw [create_eq]
  split
  case isTrue fits => simp [fits, eq_comm]
  case isFalse past => simp [past]

theorem create_eq_slotOverflow (past : 65535 < descriptor.parameterSlots (!isStatic)) :
    create id owner descriptor isStatic = .error .slotOverflow := by
  rw [create_eq, if_neg (Nat.not_le.mpr past)]

theorem getElem?_locals_initial (n : Nat) :
    (initial id owner descriptor isStatic).draft.locals[n]? =
      (argumentLocals owner descriptor isStatic)[n]? :=
  List.getElem?_toArray

theorem arguments_initial : (initial id owner descriptor isStatic).arguments =
    (List.range (argumentTypes owner descriptor isStatic).length).map fun i => ⟨id, i⟩ := by
  cases isStatic with
  | true => rfl
  | false => simp [arguments, initial, argumentTypes, List.range_succ_eq_map, Function.comp_def]

end Builder

end JvmAssembly
