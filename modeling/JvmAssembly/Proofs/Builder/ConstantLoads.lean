import Mathlib
import JvmAssembly.Proofs.Builder.Provisions
import JvmAssembly.Proofs.Builder.Retracing
import JvmAssembly.Proofs.Pool.History

/-!
Constants on their way through the code. A builder picks the shortest instruction for a value, the
index of an entry may come to fit one byte or two, and a decoder finds an opcode, a number or an
index; what is taken down in the end is a load of the same value, bit by bit.
-/
namespace JvmAssembly

open Pool

namespace Emit

open Writing

/-- An opcode that loads a value by itself stands for that value. -/
theorem shortValue?_of_loadInstruction {v : Value} {op : Opcode} {pool : Pool}
    (short : (loadInstruction v pool).1 = .simple op) : shortValue? op = some v := by
  cases v with
  | int n =>
      rw [loadInstruction] at short
      split at short
      · rename_i small
        cases short
        rw [Bool.and_eq_true, decide_eq_true_eq, decide_eq_true_eq] at small
        have low : -1 ≤ n.toInt := Int32.le_iff_toInt_le.mp small.1
        have high : n.toInt ≤ 5 := Int32.le_iff_toInt_le.mp small.2
        rw [← Int32.ofInt_toInt n]
        generalize n.toInt = k at low high
        interval_cases k <;> decide
      · split at short
        · cases short
        · split at short <;> cases short
  | long n =>
      rw [loadInstruction] at short
      split at short
      · rename_i zero
        cases short
        rw [beq_iff_eq.mp zero]
        rfl
      · split at short
        · rename_i one
          cases short
          rw [beq_iff_eq.mp one]
          rfl
        · cases short
  | float bits =>
      rw [loadInstruction] at short
      split at short
      · rename_i zero
        cases short
        rw [beq_iff_eq.mp zero]
        rfl
      · split at short
        · rename_i one
          cases short
          rw [beq_iff_eq.mp one]
          rfl
        · split at short
          · rename_i two
            cases short
            rw [beq_iff_eq.mp two]
            rfl
          · cases short
  | double bits =>
      rw [loadInstruction] at short
      split at short
      · rename_i zero
        cases short
        rw [beq_iff_eq.mp zero]
        rfl
      · split at short
        · rename_i one
          cases short
          rw [beq_iff_eq.mp one]
          rfl
        · cases short
  | string s => cases short
  | cls r => cases short

theorem owns_of_none {d : Draft} {i : Instruction} (targets : i.targets = [])
    (uses : i.uses = none) (defines : i.defines = none) : d.Owns i where
  targets label member := by
    rw [targets] at member
    cases member
  uses v used := by
    rw [uses] at used
    cases used
  defines v defined := by
    rw [defines] at defined
    cases defined

/-- Loads of constants need no label and no local. -/
theorem owns_loadInstruction (v : Value) (pool : Pool) (d : Draft) :
    d.Owns (loadInstruction v pool).1 := by
  rcases loadInstruction_cases v with ⟨op, load⟩ | ⟨op, n, -, -, load⟩ | load
  · rw [load]
    exact owns_of_none rfl rfl rfl
  · rw [load]
    exact owns_of_none rfl rfl rfl
  · rw [load]
    exact owns_of_none rfl rfl rfl

/-- A load of a constant always succeeds, and puts one instruction last. -/
theorem perform_loadConstant (v : Value) (pool : Pool) (b : Builder) :
    perform (.loadConstant v) ⟨pool, b⟩ = (.ok .nothing, ⟨(loadInstruction v pool).2,
      { b with draft := { b.draft with
        nodes := b.draft.nodes.push ⟨(loadInstruction v pool).1, true⟩
        order := b.draft.order.push b.draft.nodes.size } }⟩) := by
  have pushed : loadConstant v ⟨pool, b⟩ = push (loadInstruction v pool).1
      ⟨(loadInstruction v pool).2, b⟩ := rfl
  rw [perform, silently, run_bind, pushed, push, editing_eq, run_discard,
    push_eq_ok (owns_loadInstruction v pool b.draft)]
  rfl

variable {v : Value} {later : Pool} {table : IndexTable}

/-- The instruction is written with the indices of a pool. However the pool grows from then on,
what is read there is taken down as a load of the value. -/
def ComesBack (v : Value) (later : Pool) (table : IndexTable) (i : Instruction) : Prop :=
  ∃ bytes x,
    (∀ (d : Draft) (offsets : Offsets) (offset : Nat),
      d.encode later offsets offset i = .ok (.fixed bytes)) ∧
    (∀ address, Scan.ReadsAt address Decoded.read bytes x) ∧
    ∀ (requests : List Request) (className : String) (fixed : List UInt16) (lab loc : Type)
      (exit : Option lab) (s : Script lab loc),
      instruction ⟨later.serveAll requests, table⟩ className fixed exit x s =
        (.ok (), { s with ops := s.ops.push (.loadConstant v) })

theorem comesBack_simple {op : Opcode} (plain : Format.ofOpcode op = .plain)
    (short : shortValue? op = some v) : ComesBack v later table (.simple op) := by
  refine ⟨[op], .simple op, fun _ _ _ => rfl, fun _ => Encoding.readsAt_plain plain, ?_⟩
  intro requests className fixed lab loc exit s
  have same : (simpleOp exit op : Op (Handle lab) (Handle loc)) = .loadConstant v := by
    unfold simpleOp
    rw [short]
  rw [instruction, same]
  rfl

theorem comesBack_push {n : Int16} {op : Opcode} (family : op = Opcode.bipush ∨ op = Opcode.sipush)
    (writable : (Instruction.immediate op n).Writable #[]) :
    ComesBack (.int n.toInt32) later table (.immediate op n) := by
  rcases family with rfl | rfl
  · have small : -128 ≤ n.toInt ∧ n.toInt ≤ 127 := by
      rcases writable with ⟨-, small⟩ | other | ⟨other, -⟩
      · exact small
      · cases other
      · cases other
    exact ⟨_, .push n, fun _ _ _ => rfl, fun _ => Encoding.readsAt_bytePush small.1 small.2,
      fun _ _ _ _ _ _ _ => rfl⟩
  · exact ⟨_, .push n, fun _ _ _ => rfl, fun _ => Encoding.readsAt_shortPush n,
      fun _ _ _ _ _ _ _ => rfl⟩

/-- A load with a short or a long index is read as a load from that index. -/
theorem readsAt_load (v : Value) (index : UInt16) (address : Nat) :
    Scan.ReadsAt address Decoded.read (Encoding.constant v.opcode index) (.ldc index) := by
  have family : v.opcode = Opcode.ldc ∨ v.opcode = Opcode.ldc2_w := by
    cases v with
    | long n | double bits => exact .inr rfl
    | int n | float bits | string s | cls r => exact .inl rfl
  rcases family with single | double
  · rw [single]
    by_cases small : index ≤ 255
    · rw [Encoding.constant, if_pos (by decide), if_pos small]
      exact Encoding.readsAt_byteLoad small
    · rw [Encoding.constant, if_pos (by decide), if_neg small]
      exact Encoding.readsAt_shortLoad (by decide) index
  · rw [double]
    exact Encoding.readsAt_shortLoad (by decide) index

/-- An entry has an index while the pool has indices, and the index leads back to it. -/
theorem comesBack_constant {entry : ConstantRef} (sound : later.Sound)
    (indices : later.indexTable = .ok table) (held : later.HasValue v entry) :
    ComesBack v later table (.constant v.opcode entry v.growth) := by
  have numbered := sound.numbered_of_indexTable indices
  obtain ⟨c, found⟩ := held.lists
  obtain ⟨index, known⟩ := numbered.exists_index_iff.mpr ⟨c, sound.coherent.get found⟩
  have back := numbered.lookup indices known
  refine ⟨_, .ldc index, fun d offsets offset => ?_, readsAt_load v index, ?_⟩
  · rw [Draft.encode, known]
    rfl
  · intro requests className fixed lab loc exit s
    have value : Constants.value ⟨later.serveAll requests, table⟩ index = .ok v :=
      Constants.value_eq (sound.serveAll requests).coherent back
        ((Interning.finds_value v).kept (within_serveAll later requests) held)
    rw [instruction, run_bind, value]
    rfl

/-- Whatever the state of its pool, a builder can load any constant. It adds one instruction; when
indices are assigned later, at whatever time, the instruction is written, read and taken down as a
load of the same constant, while the pool may go on growing. -/
theorem loadConstant_comesBack {p : Pool} (started : p.Started) (requests : List Request)
    (b : Builder) (v : Value) :
    ∃ i pool, perform (.loadConstant v) ⟨p.serveAll requests, b⟩ = (.ok .nothing, ⟨pool,
        { b with draft := { b.draft with
          nodes := b.draft.nodes.push ⟨i, true⟩
          order := b.draft.order.push b.draft.nodes.size } }⟩) ∧
      ∀ more table, (pool.serveAll more).indexTable = .ok table →
        ComesBack v (pool.serveAll more) table i := by
  refine ⟨_, _, perform_loadConstant v (p.serveAll requests) b, fun more table indices => ?_⟩
  have writable := writable_loadInstruction v (p.serveAll requests) #[]
  rcases loadInstruction_cases v with ⟨op, load⟩ | ⟨op, n, family, rfl, load⟩ | load
  · rw [load] at writable ⊢
    refine comesBack_simple writable (@shortValue?_of_loadInstruction v op p ?_)
    rw [load]
    rfl
  · rw [load] at writable ⊢
    exact comesBack_push family writable
  · rw [load] at indices ⊢
    have finds := Interning.finds_value v
    have interned := finds.interns (p.serveAll requests)
    have sound := (started.sound.serveAll requests).interned interned
    exact comesBack_constant (sound.serveAll more) indices
      (finds.kept (within_serveAll _ more) (finds.made (p.serveAll requests)))

/-- A number that is none keeps its payload. -/
theorem loadConstant_comesBack_payload : ∃ table,
    ((Pool.empty.append (.float 0x7fc00001)).serveAll [.assign .preserve]).indexTable =
      .ok table ∧
    ComesBack (.float 0x7fc00001)
      ((Pool.empty.append (.float 0x7fc00001)).serveAll [.assign .preserve]) table
      (.constant Opcode.ldc 0 1) := by
  obtain ⟨i, pool, performed, back⟩ := loadConstant_comesBack .empty []
    (Builder.initial 0 .object ⟨[], none⟩ true) (.float 0x7fc00001)
  have fresh : loadInstruction (.float 0x7fc00001) Pool.empty =
      (.constant Opcode.ldc 0 1, Pool.empty.append (.float 0x7fc00001)) := by
    change (Instruction.constant Opcode.ldc (Pool.empty.intern (.float 0x7fc00001)).1 1,
      (Pool.empty.intern (.float 0x7fc00001)).2) = _
    rw [intern_empty]
  rw [perform_loadConstant, Pool.serveAll, List.foldl_nil, fresh] at performed
  have pushed := congrArg (fun r => r.2.builder.draft.nodes.back?) performed
  dsimp only at pushed
  rw [Array.back?_push, Array.back?_push] at pushed
  cases pushed
  cases congrArg (fun r => r.2.pool) performed
  have numbered :
      ((Pool.empty.append (.float 0x7fc00001)).serveAll [.assign .preserve]).Numbered := by
    obtain ⟨q, assigned⟩ := @exists_assign (Pool.empty.append (.float 0x7fc00001)) .preserve
      (by decide)
    change ((Pool.empty.append (.float 0x7fc00001)).serve (.assign .preserve)).Numbered
    rw [serve, assigned]
    exact numbered_of_assign assigned
  obtain ⟨table, indices, -⟩ := numbered.tiles
  exact ⟨table, indices, back [.assign .preserve] table indices⟩

end Emit

end JvmAssembly
