import Mathlib
import JvmAssembly.Proofs.Disassembly.RoundTrip
import JvmAssembly.Proofs.Draft.Balance
import JvmAssembly.Proofs.Draft.LiveRows

/-!
Drafts with the same instructions at the same addresses. Labels take no room, so where they stand
and how many there are makes no difference to what control comes to: each position of one draft is
as good as any position with its address in the other. Stack depths agree, and a local that is read
later in one is read later in the other.
-/
namespace JvmAssembly

/-- Addresses of positions: labels take no room, and everything else does. -/
structure Addressed (d : Draft) (address : Nat → Nat) : Prop where
  monotone : Monotone address
  lt_succ {i : Nat} {x : Instruction} (here : d.at? i = some x) :
    address i < address (i + 1) ↔ x.isLabel = false

theorem Instruction.isLabel_eq_false (x : Instruction) (other : x ≠ .label) : x.isLabel = false :=
  Bool.eq_false_of_not_eq_true fun label => other (isLabel_iff.mp label)

theorem Layout.Settled.addressed {pool : Pool} {d : Draft} {l : Layout}
    (settled : Settled pool d l) : Addressed d (l.offsetAt d.order.toList) :=
  ⟨settled.monotone_offsetAt, settled.offsetAt_lt_succ⟩

namespace Addressed

open Draft

variable {d : Draft} {address : Nat → Nat} {i j : Nat} {x : Instruction}

/-- Labels come before the instruction at their address. -/
theorem le_of_solid (addressed : Addressed d address) (here : d.at? j = some x)
    (solid : x.isLabel = false) (same : address i = address j) : i ≤ j := by
  by_contra past
  have more := (addressed.lt_succ here).mpr solid
  have further := addressed.monotone (show j + 1 ≤ i by omega)
  omega

theorem eq_succ_of_label (addressed : Addressed d address) (here : d.at? i = some .label) :
    address (i + 1) = address i := by
  have le := addressed.monotone (show i ≤ i + 1 by omega)
  have lt := (addressed.lt_succ here).not.mpr (by simp [Instruction.isLabel])
  exact Nat.le_antisymm (Nat.le_of_not_lt lt) le

/-- Between positions with one address there are labels only. -/
theorem label_of_lt (addressed : Addressed d address) (lt : i < j)
    (inside : j < d.order.toList.length) (same : address i = address j) :
    d.at? i = some .label := by
  obtain ⟨x, here⟩ := exists_at?.mpr (Nat.lt_trans lt inside)
  have further := addressed.monotone (show i + 1 ≤ j by omega)
  have label : x.isLabel = true := by
    by_contra solid
    have more := (addressed.lt_succ here).mpr (Bool.eq_false_of_not_eq_true solid)
    omega
  rw [here, Instruction.isLabel_iff.mp label]

theorem reaches_ahead (addressed : Addressed d address) {depth : Int} (here : d.Reaches i depth)
    (le : i ≤ j) (inside : j < d.order.toList.length) (same : address i = address j) :
    d.Reaches j depth := by
  induction j, le using Nat.le_induction with
  | base => exact here
  | succ j le ih =>
      have lower := addressed.monotone le
      have upper := addressed.monotone (show j ≤ j + 1 by omega)
      have before := ih (Nat.lt_of_succ_lt inside) (by omega)
      have label := addressed.label_of_lt (show j < j + 1 by omega) inside (by omega)
      have moved := Reaches.move before (.next label rfl rfl) inside
      rwa [Instruction.adjustment, Int.add_zero] at moved

theorem liveIn_behind (addressed : Addressed d address) {v : Nat} (live : d.LiveIn v j)
    (le : i ≤ j) (same : address i = address j) : d.LiveIn v i := by
  obtain ⟨y, last⟩ := live.source
  have inside := exists_at?.mp ⟨y, last⟩
  obtain ⟨k, rfl⟩ := Nat.exists_eq_add_of_le le
  induction k generalizing i with
  | zero => exact live
  | succ k ih =>
      have lower := addressed.monotone (show i ≤ i + 1 by omega)
      have upper := addressed.monotone (show i + 1 ≤ i + (k + 1) by omega)
      have again : i + 1 + k = i + (k + 1) := by omega
      have next : d.LiveIn v (i + 1) :=
        ih (i := i + 1) (by rw [again]; exact live) (by omega) (by rw [again]; omega)
          (by rw [again]; exact last) (by rw [again]; exact inside)
      have label := addressed.label_of_lt (show i < i + (k + 1) by omega) inside same
      exact .pass label nofun (.next label rfl (by omega)) next

end Addressed

/-- What the first instruction reads is read by the second, which writes no local that the first
does not write. -/
structure Instruction.Sustains (x y : Instruction) : Prop where
  uses {v : Local} (read : x.uses = some v) : ∃ w, y.uses = some w ∧ w.index = v.index
  defines {w : Local} (written : y.defines = some w) : ∃ v, x.defines = some v ∧ v.index = w.index

/-- An instruction in another draft that stands at the same address, moves the stack alike and goes
on to the same addresses. -/
structure Matches (d d' : Draft) (address address' : Nat → Nat) (i j : Nat) (x y : Instruction) :
    Prop where
  here : address' j = address i
  next : address' (j + 1) = address (i + 1)
  solid : y.isLabel = false
  ordinary : y.isSubroutineCall = false
  adjustment : y.adjustment = x.adjustment
  falls : y.fallsThrough = x.fallsThrough
  targets {label : Label} {k : Nat} (member : label ∈ x.targets) (there : d.PlacedAt label k) :
    ∃ label' ∈ y.targets, ∃ k', d'.PlacedAt label' k' ∧ address' k' = address k

/-- Every instruction has its like in the other draft, to which it is related. -/
structure Mirrors (R : Instruction → Instruction → Prop) (d d' : Draft)
    (address address' : Nat → Nat) : Prop where
  addressed : Addressed d address
  addressed' : Addressed d' address'
  start : address' 0 = address 0
  bare : d.handlers = #[]
  instruction {i : Nat} {x : Instruction} (here : d.at? i = some x) (solid : x.isLabel = false) :
    ∃ j y, d'.at? j = some y ∧ R x y ∧ Matches d d' address address' i j x y

namespace Mirrors

open Draft

variable {R : Instruction → Instruction → Prop} {d d' : Draft} {address address' : Nat → Nat}
  {i j : Nat} {x y : Instruction} {depth top : Int} {v : Nat}

/-- Control comes to every address in the other draft, if there is a position with it. -/
theorem reaches (m : Mirrors R d d' address address') (here : d.Reaches i depth)
    (there : ∃ j < d'.order.toList.length, address' j = address i) :
    ∃ j, d'.Reaches j depth ∧ address' j = address i := by
  induction here with
  | start inside =>
      obtain ⟨j, inside', -⟩ := there
      exact ⟨0, .start (Nat.zero_lt_of_lt inside'), m.start⟩
  | handler member _ =>
      rw [m.bare] at member
      exact absurd member (Array.not_mem_empty _)
  | @move i k depth growth here moves inside ih =>
      obtain ⟨x, found⟩ := exists_at?.mpr here.inside
      by_cases label : x = .label
      · subst label
        cases moves with
        | next found' =>
            cases found.symm.trans found'
            rw [m.addressed.eq_succ_of_label found] at there ⊢
            rw [Instruction.adjustment, Int.add_zero]
            exact ih there
        | jump found' _ member _ =>
            cases found.symm.trans found'
            cases member
      · have solid := x.isLabel_eq_false label
        obtain ⟨j, y, found', -, like⟩ := m.instruction found solid
        have inside' := exists_at?.mp ⟨y, found'⟩
        obtain ⟨k', reached, same⟩ := ih ⟨j, inside', like.here⟩
        have ahead := m.addressed'.le_of_solid found' like.solid (same.trans like.here.symm)
        have arrived := m.addressed'.reaches_ahead reached ahead inside'
          (same.trans like.here.symm)
        cases moves with
        | next found'' _ falls =>
            cases found.symm.trans found''
            obtain ⟨t, inside'', same'⟩ := there
            have past : j < t := by
              by_contra before
              have le := m.addressed'.monotone (Nat.le_of_not_lt before)
              have lt := (m.addressed.lt_succ found).mpr solid
              have here := like.here
              omega
            have moved := Reaches.move arrived (.next found' like.ordinary (like.falls.trans falls))
              (Nat.lt_of_le_of_lt past inside'')
            rw [like.adjustment] at moved
            exact ⟨j + 1, moved, like.next⟩
        | jump found'' _ member placed =>
            cases found.symm.trans found''
            obtain ⟨label', member', t, placed', same'⟩ := like.targets member placed
            have moved := Reaches.move arrived (.jump found' like.ordinary member' placed')
              placed'.inside
            rw [like.adjustment] at moved
            exact ⟨t, moved, same'⟩

/-- Control comes to an instruction as it comes to its like. -/
theorem reaches_like (m : Mirrors R d d' address address') (here : d.Reaches i depth)
    (found' : d'.at? j = some y) (like : Matches d d' address address' i j x y) :
    d'.Reaches j depth := by
  have inside := exists_at?.mp ⟨y, found'⟩
  obtain ⟨k, reached, same⟩ := m.reaches here ⟨j, inside, like.here⟩
  have same' := same.trans like.here.symm
  exact m.addressed'.reaches_ahead reached (m.addressed'.le_of_solid found' like.solid same')
    inside same'

/-- Where control may go from an instruction it may go from its like, if the local is read from an
instruction with the address on. -/
theorem liveOut_like (m : Mirrors R d d' address address') (free : d.CallFree)
    (found : d.at? i = some x) (found' : d'.at? j = some y)
    (like : Matches d d' address address' i j x y) {k k' : Nat} {z : Instruction}
    (edge : d.Edge i k) (there : d'.at? k' = some z) (solid : z.isLabel = false)
    (same : address' k' = address k) (live : d'.LiveIn v k') : d'.LiveOut v j := by
  have behind : ∀ t, address' t = address k → t ≤ k' ∧ d'.LiveIn v t := fun t same' => by
    have le := m.addressed'.le_of_solid there solid (same'.trans same.symm)
    exact ⟨le, m.addressed'.liveIn_behind live le (same'.trans same.symm)⟩
  cases edge with
  | next found'' falls _ =>
      cases found.symm.trans found''
      obtain ⟨le, next⟩ := behind (j + 1) like.next
      exact ⟨j + 1, .next found' (like.falls.trans falls)
        (Nat.lt_of_le_of_lt le (exists_at?.mp ⟨z, there⟩)), next⟩
  | jump found'' member placed =>
      cases found.symm.trans found''
      obtain ⟨label', member', t, placed', same'⟩ := like.targets member placed
      exact ⟨t, .jump found' member' placed', (behind t same').2⟩
  | ret _ there' calls _ =>
      rw [free _ _ there'] at calls
      cases calls

/-- A local that is read later is read later in the other draft, from the instruction with the
address on. -/
theorem liveIn (m : Mirrors Instruction.Sustains d d' address address') (free : d.CallFree)
    (live : d.LiveIn v i) :
    ∃ j y, d'.at? j = some y ∧ y.isLabel = false ∧ address' j = address i ∧ d'.LiveIn v j := by
  induction live with
  | @read i x w found uses same =>
      have solid : x.isLabel = false := by
        cases x with
        | label => cases uses
        | _ => rfl
      obtain ⟨j, y, found', same', like⟩ := m.instruction found solid
      obtain ⟨w', uses', index⟩ := same'.uses uses
      exact ⟨j, y, found', like.solid, like.here, .read found' uses' (index.trans same)⟩
  | @pass i k x found unwritten edge _ ih =>
      obtain ⟨k', z, there, solid', same, live⟩ := ih
      by_cases label : x = .label
      · subst label
        cases edge with
        | next found' =>
            rw [m.addressed.eq_succ_of_label found] at same
            exact ⟨k', z, there, solid', same, live⟩
        | jump found' member =>
            cases found.symm.trans found'
            cases member
        | ret found' => cases found.symm.trans found'
      · have solid := x.isLabel_eq_false label
        obtain ⟨j, y, found', same', like⟩ := m.instruction found solid
        obtain ⟨t, edge', later⟩ := m.liveOut_like free found found' like edge there solid' same live
        refine ⟨j, y, found', like.solid, like.here, .pass found' ?_ edge' later⟩
        intro w written
        obtain ⟨w', written', index⟩ := same'.defines written
        rw [← index]
        exact unwritten w' written'
  | throw _ throws =>
      obtain ⟨h, member, -⟩ := throws
      rw [m.bare] at member
      exact absurd member (Array.not_mem_empty _)

/-- What an instruction writes is read later if it is for its like. -/
theorem liveOut (m : Mirrors Instruction.Sustains d d' address address') (free : d.CallFree)
    (found : d.at? i = some x) (found' : d'.at? j = some y)
    (like : Matches d d' address address' i j x y) (live : d.LiveOut v i) : d'.LiveOut v j := by
  obtain ⟨k, edge, later⟩ := live
  obtain ⟨k', z, there, solid, same, later'⟩ := m.liveIn free later
  exact m.liveOut_like free found found' like edge there solid same later'

end Mirrors

namespace Draft

variable {d d' : Draft} {i : Nat} {depth top : Int}

theorem Balanced.nonneg_of_reaches (balanced : d.Balanced top) (here : d.Reaches i depth) :
    0 ≤ depth := by
  cases here with
  | start => exact Int.le_refl 0
  | handler => decide
  | move before moves =>
      cases moves with
      | next found => exact balanced.floor before found
      | jump found => exact balanced.floor before found

/-- A depth that control comes to is zero or one before or behind an instruction with bytes. -/
theorem Reaches.solid (bare : d.handlers = #[]) (here : d.Reaches i depth) :
    depth = 0 ∨ ∃ k before x, d.Reaches k before ∧ d.at? k = some x ∧ x.isLabel = false ∧
      depth = before + x.adjustment := by
  induction here with
  | start => exact .inl rfl
  | handler member =>
      rw [bare] at member
      exact absurd member (Array.not_mem_empty _)
  | @move i j depth growth here moves inside ih =>
      obtain ⟨x, found, grown⟩ : ∃ x, d.at? i = some x ∧ growth = x.adjustment := by
        cases moves with
        | next found => exact ⟨_, found, rfl⟩
        | jump found => exact ⟨_, found, rfl⟩
      by_cases label : x = .label
      · rw [grown, label, Instruction.adjustment, Int.add_zero]
        exact ih
      · have solid := x.isLabel_eq_false label
        exact .inr ⟨i, depth, x, here, found, solid, by rw [grown]⟩

/-- A draft that mirrors a balanced one is balanced at the same height, if all of its positions
have an address of that one. -/
theorem Balanced.mirrored {R R' : Instruction → Instruction → Prop} {address address' : Nat → Nat}
    (balanced : d.Balanced top) (forth : Mirrors R d d' address address')
    (back : Mirrors R' d' d address' address)
    (cover : ∀ j < d'.order.toList.length, ∃ i < d.order.toList.length, address i = address' j)
    (stays : ∀ j, ¬ d'.Returns j) : d'.Balanced top := by
  have origin : ∀ {j depth}, d'.Reaches j depth → ∃ i, d.Reaches i depth ∧ address i = address' j :=
    fun here => back.reaches here (cover _ here.inside)
  have attains : ∀ {i depth x}, d.Reaches i depth → d.at? i = some x → x.isLabel = false →
      d'.Attains depth ∧ d'.Attains (depth + x.adjustment) := by
    intro i depth x here found solid
    obtain ⟨j, y, found', -, like⟩ := forth.instruction found solid
    have here' := forth.reaches_like here found' like
    exact ⟨.inr ⟨j, depth, y, here', found', .inl rfl⟩,
      .inr ⟨j, depth, y, here', found', .inr (by rw [like.adjustment])⟩⟩
  refine ⟨?_, ?_, ?_, balanced.nonneg, ?_, ?_⟩
  · intro j depth depth' here here'
    obtain ⟨i, reached, same⟩ := origin here
    obtain ⟨i', reached', same'⟩ := origin here'
    have one : address i = address i' := same.trans same'.symm
    rcases Nat.le_total i i' with le | le
    · exact balanced.unique (forth.addressed.reaches_ahead reached le reached'.inside one) reached'
    · exact balanced.unique reached
        (forth.addressed.reaches_ahead reached' le reached.inside one.symm)
  · intro j depth y here found
    by_cases label : y = .label
    · obtain ⟨i, reached, -⟩ := origin here
      rw [label, Instruction.adjustment, Int.add_zero]
      exact balanced.nonneg_of_reaches reached
    · have solid := y.isLabel_eq_false label
      obtain ⟨i, x, found', -, like⟩ := back.instruction found solid
      rw [← like.adjustment]
      exact balanced.floor (back.reaches_like here found' like) found'
  · intro i j depth depth' _ _ returns
    exact absurd returns (stays i)
  · intro j depth y here found
    by_cases label : y = .label
    · obtain ⟨i, reached, -⟩ := origin here
      obtain ⟨x, found'⟩ := exists_at?.mpr reached.inside
      rw [label, Instruction.adjustment, Int.add_zero]
      exact ⟨(balanced.le_top reached found').1, (balanced.le_top reached found').1⟩
    · have solid := y.isLabel_eq_false label
      obtain ⟨i, x, found', -, like⟩ := back.instruction found solid
      rw [← like.adjustment]
      exact balanced.le_top (back.reaches_like here found' like) found'
  · rcases balanced.attained with rfl | ⟨i, depth, x, here, found, same⟩
    · exact .inl rfl
    · by_cases label : x = .label
      · have level : top = depth := by
          rcases same with same | same
          · exact same
          · rw [same, label, Instruction.adjustment, Int.add_zero]
        rw [level]
        rcases here.solid forth.bare with rfl | ⟨k, before, z, here', found', solid, rfl⟩
        · exact .inl rfl
        · exact (attains here' found' solid).2
      · have solid := x.isLabel_eq_false label
        rcases same with rfl | rfl
        · exact (attains here found solid).1
        · exact (attains here found solid).2

end Draft

end JvmAssembly
