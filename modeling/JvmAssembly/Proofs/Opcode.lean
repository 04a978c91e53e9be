import Mathlib
import JvmAssembly.Opcode

/-!
Facts about all opcodes. There are few enough of them to look at each one.
-/
namespace JvmAssembly.Opcode

/-- What a test says of each byte holds of every opcode. -/
theorem forall_of_all {p : Opcode → Bool}
    (h : ((List.range 256).all fun n => p (UInt8.ofNat n)) = true) (op : Opcode) :
    p op = true := by
  have found := List.all_eq_true.mp h op.toNat (List.mem_range.mpr op.toNat_lt)
  rwa [UInt8.ofNat_toNat] at found

theorem forall_of_decide {P : Opcode → Prop} [DecidablePred P]
    (h : ((List.range 256).all fun n => decide (P (UInt8.ofNat n))) = true) (op : Opcode) : P op :=
  of_decide_eq_true (forall_of_all (p := fun op => decide (P op)) h op)

/-- A condition is the opposite of its opposite. -/
theorem invert?_invert? {op inverted : Opcode} (h : op.invert? = some inverted) :
    inverted.invert? = some op := by
  have back := forall_of_all
    (p := fun op => (invert? op).all fun c => invert? c == some op) (by decide +kernel) op
  rw [h] at back
  exact beq_iff_eq.mp back

theorem isFar_of_farForm? {op far : Opcode} (form : op.farForm? = some far) :
    far.isFar = true := by
  unfold farForm? at form
  split at form
  · cases form
    rfl
  · split at form <;> cases form
    rfl

/-- Jumps with a four-byte form are unconditional, and that form has no wider one. -/
theorem invert?_of_farForm? {op far : Opcode} (form : op.farForm? = some far) :
    op.invert? = none ∧ far.invert? = none ∧ far.farForm? = none := by
  unfold farForm? at form
  split at form
  · rename_i same
    cases form
    rw [beq_iff_eq] at same
    subst same
    decide
  · split at form
    · rename_i same
      cases form
      rw [beq_iff_eq] at same
      subst same
      decide
    · cases form

/-- What is widened was not wide before. -/
theorem isFar_of_widened {op wider : Opcode} (h : op.farForm? = some wider ∨ op.invert? = some wider) :
    op.isFar = false := by
  have near := forall_of_all (p := fun op => !(op.farForm?.isSome || op.invert?.isSome) || !op.isFar)
    (by decide +kernel) op
  rcases h with form | opposite
  · simpa [form] using near
  · simpa [opposite] using near

end JvmAssembly.Opcode
