import Mathlib
import JvmAssembly.Proofs.Draft.LastPass
import JvmAssembly.Proofs.Draft.Reachable

/-!
Widening keeps control flow. Conditions are read as truth values of which opposite ones are
opposite; the nodes that layout puts in are passed through without a trace. What one widening
keeps is kept by a whole layout, and the distances in the code are exact.
-/
namespace JvmAssembly

/-- Opposite conditions have opposite truth values. -/
def Opposed (holds : Opcode → Bool) : Prop :=
  ∀ c c' : Opcode, c.invert? = some c' → holds c' = !holds c

/-- Of two opposite conditions, one is odd and one is even. -/
theorem opposed_parity {r : Opcode} (bit : r = 0 ∨ r = 1) : Opposed fun op => op % 2 == r := by
  intro c c' opposite
  have all := Opcode.forall_of_all (p := fun c => (Opcode.invert? c).all fun c' =>
    (c' % 2 == r) == !(c % 2 == r)) (by rcases bit with rfl | rfl <;> decide +kernel) c
  rw [opposite] at all
  exact beq_iff_eq.mp all

namespace Draft

/-- Where control goes from a node. -/
def goesTo (d : Draft) (holds : Opcode → Bool) (n : NodeId) : Option NodeId :=
  match d.instructionAt n with
  | .branch op target =>
    if op.invert?.isNone || holds op then some target.node else d.next? n
  | _ => d.next? n

/-- Control that leaves a node comes to another one, or to the end of the draft, and passes only
nodes with numbers from `size` on. -/
inductive Arrives (d : Draft) (holds : Opcode → Bool) (size : Nat) : NodeId → Option NodeId → Prop
  | stop {n : NodeId} {x : Option NodeId} (step : d.goesTo holds n = x)
      (old : ∀ m, x = some m → m < size) : Arrives d holds size n x
  | pass {n m : NodeId} {x : Option NodeId} (step : d.goesTo holds n = some m) (new : size ≤ m)
      (later : Arrives d holds size m x) : Arrives d holds size n x

variable {d d' : Draft} {holds : Opcode → Bool} {size : Nat}

section Next

theorem idxOf?_order (d : Draft) (n : NodeId) : d.order.idxOf? n = d.order.toList.idxOf? n := by
  rw [← List.idxOf?_toArray]

theorem next?_eq {before after : List NodeId} {n : NodeId} (nodup : d.order.toList.Nodup)
    (split : d.order.toList = before ++ n :: after) : d.next? n = after.head? := by
  have absent : n ∉ before := by
    rw [split, List.nodup_middle, List.nodup_cons] at nodup
    exact fun member => nodup.1 (List.mem_append_left _ member)
  have index : d.order.idxOf? n = some before.length := by
    rw [idxOf?_order, split]
    exact idxOf?_append absent
  have stored : d.order[before.length + 1]? = after.head? := by
    rw [← Array.getElem?_toList, split, List.getElem?_append_right (Nat.le_succ _)]
    simp [List.head?_eq_getElem?]
  rw [next?, index]
  exact stored

theorem next?_of_not_mem {n : NodeId} (absent : n ∉ d.order.toList) : d.next? n = none := by
  have index : d.order.idxOf? n = none := by
    rw [idxOf?_order, List.idxOf?_eq_none_iff]
    exact absent
  rw [next?, index]

theorem mem_of_next? {n m : NodeId} (h : d.next? n = some m) : m ∈ d.order.toList := by
  unfold next? at h
  split at h
  · rw [← Array.getElem?_toList] at h
    exact List.mem_of_getElem? h
  · cases h

end Next

theorem OwnsLabel.lt_size {label : Label} (own : d.OwnsLabel label) :
    label.node < d.nodes.size := by
  obtain ⟨-, placed, found⟩ := own
  exact (Array.getElem?_eq_some_iff.mp found).1

theorem goesTo_lt_size (valid : d.Valid) {n m : NodeId} (h : d.goesTo holds n = some m) :
    m < d.nodes.size := by
  unfold goesTo at h
  split at h
  · rename_i op target found
    split at h
    · cases h
      exact (valid.ownsTarget found).lt_size
    · exact valid.inside (mem_of_next? h)
  · exact valid.inside (mem_of_next? h)

theorem goesTo_branch {n : NodeId} {op : Opcode} {target : Label}
    (found : d.instructionAt n = .branch op target) :
    d.goesTo holds n =
      if op.invert?.isNone || holds op then some target.node else d.next? n := by
  simp only [goesTo, found]

/-- The four-byte form of a jump goes where the jump went. -/
theorem goesTo_setInstruction (valid : d.Valid) {node : Nat} {op far : Opcode} {target : Label}
    (member : node ∈ d.order.toList) (found : d.instructionAt node = .branch op target)
    (form : op.farForm? = some far) (n : Nat) :
    (d.setInstruction node (.branch far target)).goesTo holds n = d.goesTo holds n := by
  have next : (d.setInstruction node (.branch far target)).next? n = d.next? n := rfl
  by_cases same : n = node
  · subst same
    obtain ⟨plain, wide, -⟩ := Opcode.invert?_of_farForm? form
    rw [goesTo_branch (instructionAt_setInstruction d _ (valid.inside member)),
      goesTo_branch found, plain, wide]
    rfl
  · unfold goesTo
    rw [instructionAt_setInstruction_ne d _ same, next]

namespace widenCondition

variable {node : Nat} {inverted op : Opcode} {target : Label} {before after : List NodeId}

theorem order_toList (valid : d.Valid) (split : d.order.toList = before ++ node :: after)
    (inverted : Opcode) (target : Label) :
    (d.widenCondition node inverted target).order.toList =
      before ++ node :: (d.nodes.size + 1) :: d.nodes.size :: after := by
  rw [order_eq valid split]

theorem mem_order (valid : d.Valid) (member : node ∈ d.order.toList) {n : NodeId} :
    n ∈ (d.widenCondition node inverted target).order.toList ↔
      n = d.nodes.size ∨ n = d.nodes.size + 1 ∨ n ∈ d.order.toList := by
  obtain ⟨before, after, split⟩ := List.append_of_mem member
  rw [order_toList valid split, split]
  simp only [List.mem_append, List.mem_cons]
  tauto

theorem next?_other (valid : d.Valid) (after' : (d.widenCondition node inverted target).Valid)
    (split : d.order.toList = before ++ node :: after) {n : Nat} (inside : n < d.nodes.size)
    (other : n ≠ node) : (d.widenCondition node inverted target).next? n = d.next? n := by
  have order := order_toList valid split inverted target
  by_cases early : n ∈ before
  · obtain ⟨front, back, rfl⟩ := List.append_of_mem early
    rw [List.append_assoc, List.cons_append] at split order
    rw [next?_eq after'.nodup order, next?_eq valid.nodup split]
    cases back <;> rfl
  · by_cases late : n ∈ after
    · obtain ⟨front, back, rfl⟩ := List.append_of_mem late
      rw [← List.cons_append, ← List.append_assoc] at split
      rw [← List.cons_append, ← List.cons_append, ← List.cons_append, ← List.append_assoc] at order
      rw [next?_eq after'.nodup order, next?_eq valid.nodup split]
    · have hop : n ≠ d.nodes.size := Nat.ne_of_lt inside
      have jump : n ≠ d.nodes.size + 1 := by omega
      rw [next?_of_not_mem (by simp [order, early, late, other, hop, jump]),
        next?_of_not_mem (by simp [split, early, late, other])]

theorem goesTo_other (valid : d.Valid) (after' : (d.widenCondition node inverted target).Valid)
    (split : d.order.toList = before ++ node :: after) {n : Nat} (inside : n < d.nodes.size)
    (other : n ≠ node) :
    (d.widenCondition node inverted target).goesTo holds n = d.goesTo holds n := by
  unfold goesTo
  rw [atOther inside other, next?_other valid after' split inside other]

/-- From the widened jump control comes to one of the new nodes, and from there to where it went
before. -/
theorem goesTo_node (valid : d.Valid) (after' : (d.widenCondition node inverted target).Valid)
    (split : d.order.toList = before ++ node :: after)
    (found : d.instructionAt node = .branch op target) (opposite : op.invert? = some inverted)
    (opposed : Opposed holds) :
    ∃ m, d.nodes.size ≤ m ∧ (d.widenCondition node inverted target).goesTo holds node = some m ∧
      (d.widenCondition node inverted target).goesTo holds m = d.goesTo holds node := by
  have inside : node < d.nodes.size := valid.inside (by simp [split])
  have order := order_toList valid split inverted target
  have back := Opcode.invert?_invert? opposite
  rw [goesTo_branch (atNode inside), goesTo_branch found, opposite, back,
    opposed op inverted opposite]
  cases holds op with
  | true =>
      refine ⟨d.nodes.size + 1, Nat.le_succ _, next?_eq after'.nodup order, ?_⟩
      rw [goesTo_branch (atJump inside)]
      rfl
  | false =>
      refine ⟨d.nodes.size, Nat.le_refl _, rfl, ?_⟩
      have behind : (d.widenCondition node inverted target).order.toList =
          (before ++ [node, d.nodes.size + 1]) ++ d.nodes.size :: after := by simp [order]
      unfold goesTo
      rw [atHop inside]
      exact (next?_eq after'.nodup behind).trans (next?_eq valid.nodup split).symm

end widenCondition

/-- Control that arrives before a jump is widened arrives at the same place afterwards. -/
theorem Widens.arrives (w : Widens d d') (valid : d.Valid) (opposed : Opposed holds)
    (bound : size ≤ d.nodes.size) {n : Nat} {x : Option NodeId} (inside : n < d.nodes.size)
    (h : d.Arrives holds size n x) : d'.Arrives holds size n x := by
  have after' := w.valid valid
  cases w with
  | jump member found form =>
      induction h with
      | stop step old =>
          exact .stop ((goesTo_setInstruction valid member found form _).trans step) old
      | pass step new _ ih =>
          exact .pass ((goesTo_setInstruction valid member found form _).trans step) new
            (ih (goesTo_lt_size valid step))
  | @condition node op inverted target member found form opposite =>
      obtain ⟨before, after, split⟩ := List.append_of_mem member
      obtain ⟨m, new, first, second⟩ :=
        widenCondition.goesTo_node valid after' split found opposite opposed
      induction h with
      | @stop n x step old =>
          by_cases same : n = node
          · subst same
            exact .pass first (Nat.le_trans bound new) (.stop (second.trans step) old)
          · exact .stop ((widenCondition.goesTo_other valid after' split inside same).trans step)
              old
      | @pass n k x step newer _ ih =>
          have rest := ih (goesTo_lt_size valid step)
          by_cases same : n = node
          · subst same
            exact .pass first (Nat.le_trans bound new) (.pass (second.trans step) newer rest)
          · exact .pass ((widenCondition.goesTo_other valid after' split inside same).trans step)
              newer rest

/-- What a draft has kept of an earlier one: its sequence between the nodes put in since, its
instructions other than jumps, and its unconditional jumps, some in their four-byte form. -/
structure Retains (old d : Draft) : Prop where
  size : old.nodes.size ≤ d.nodes.size
  order : d.order.toList.filter (fun n => decide (n < old.nodes.size)) = old.order.toList
  inserted : ∀ n ∈ d.order.toList, old.nodes.size ≤ n →
    d.instructionAt n = .label ∨ ∃ target, d.instructionAt n = .branch Opcode.goto_w target
  ordinary : ∀ n < old.nodes.size, (∀ op target, old.instructionAt n ≠ .branch op target) →
    d.instructionAt n = old.instructionAt n
  jumps : ∀ n < old.nodes.size, ∀ op target, old.instructionAt n = .branch op target →
    op.invert? = none →
    ∃ op', d.instructionAt n = .branch op' target ∧ (op' = op ∨ op.farForm? = some op')
  targets : (∀ n ∈ old.order.toList, ∀ label ∈ (old.instructionAt n).targets,
    label.node ∈ old.order.toList) → ∀ n ∈ d.order.toList, ∀ label ∈ (d.instructionAt n).targets,
      label.node ∈ d.order.toList

theorem Retains.refl (valid : d.Valid) : Retains d d where
  size := Nat.le_refl _
  order := by
    rw [List.filter_eq_self]
    intro n member
    exact decide_eq_true (valid.inside member)
  inserted n member new := absurd (valid.inside member) (Nat.not_lt.mpr new)
  ordinary _ _ _ := rfl
  jumps _ _ op _ found _ := ⟨op, found, .inl rfl⟩
  targets h := h

/-- The only jumps put in are far ones, so any other jump was there before. -/
theorem Retains.lt_size_of_branch {old : Draft} (r : Retains old d) {node : NodeId} {op : Opcode}
    {target : Label} (member : node ∈ d.order.toList)
    (found : d.instructionAt node = .branch op target) (near : op ≠ Opcode.goto_w) :
    node < old.nodes.size := by
  by_contra new
  rcases r.inserted node member (Nat.le_of_not_lt new) with label | ⟨far, jump⟩
  · rw [label] at found
    cases found
  · rw [jump] at found
    cases found
    exact near rfl

theorem Retains.jump {old : Draft} (r : Retains old d) (valid : d.Valid) {node : Nat}
    {op far : Opcode} {target : Label} (member : node ∈ d.order.toList)
    (found : d.instructionAt node = .branch op target) (form : op.farForm? = some far) :
    Retains old (d.setInstruction node (.branch far target)) := by
  have atNode := instructionAt_setInstruction d (.branch far target) (valid.inside member)
  have atOther : ∀ n, n ≠ node →
      (d.setInstruction node (.branch far target)).instructionAt n = d.instructionAt n :=
    fun n other => instructionAt_setInstruction_ne d _ other
  refine ⟨?_, r.order, ?_, ?_, ?_, ?_⟩
  · rw [size_setInstruction]
    exact r.size
  · intro n placed new
    have before := r.lt_size_of_branch member found (by rintro rfl; cases form)
    rw [atOther n (Nat.ne_of_gt (Nat.lt_of_lt_of_le before new))]
    exact r.inserted n placed new
  · intro n inside plain
    have same := r.ordinary n inside plain
    have other : n ≠ node := by
      rintro rfl
      exact plain op target (same.symm.trans found)
    rw [atOther n other, same]
  · intro n inside op₀ target₀ was single
    obtain ⟨op', now, origin⟩ := r.jumps n inside op₀ target₀ was single
    by_cases same : n = node
    · subst same
      rw [now] at found
      cases found
      refine ⟨far, atNode, .inr ?_⟩
      rcases origin with rfl | wide
      · exact form
      · rw [(Opcode.invert?_of_farForm? wide).2.2] at form
        cases form
    · exact ⟨op', (atOther n same).trans now, origin⟩
  · intro placed n member' label
    by_cases same : n = node
    · subst same
      rw [atNode]
      intro inside
      apply r.targets placed n member' label
      rw [found]
      exact inside
    · rw [atOther n same]
      exact r.targets placed n member' label

theorem Retains.condition {old : Draft} (r : Retains old d) (valid : d.Valid) {node : Nat}
    {op inverted : Opcode} {target : Label} (member : node ∈ d.order.toList)
    (found : d.instructionAt node = .branch op target) (opposite : op.invert? = some inverted) :
    Retains old (d.widenCondition node inverted target) := by
  obtain ⟨before, after, split⟩ := List.append_of_mem member
  have inside := valid.inside member
  have grown := r.size
  have order := widenCondition.order_toList valid split inverted target
  have nodes := @widenCondition.mem_order d node inverted target valid member
  refine ⟨?_, ?_, ?_, ?_, ?_, ?_⟩
  · rw [widenCondition.size]
    omega
  · have kept := r.order
    rw [split] at kept
    rw [order]
    simp only [List.filter_append, List.filter_cons] at kept ⊢
    have jump : ¬ d.nodes.size + 1 < old.nodes.size := by omega
    have hop : ¬ d.nodes.size < old.nodes.size := by omega
    simpa [jump, hop] using kept
  · intro n placed new
    rcases nodes.mp placed with rfl | rfl | known
    · exact .inl (widenCondition.atHop inside)
    · exact .inr ⟨target, widenCondition.atJump inside⟩
    · have before := r.lt_size_of_branch member found (by rintro rfl; cases opposite)
      rw [widenCondition.atOther (valid.inside known)
        (Nat.ne_of_gt (Nat.lt_of_lt_of_le before new))]
      exact r.inserted n known new
  · intro n bound plain
    have same := r.ordinary n bound plain
    have other : n ≠ node := by
      rintro rfl
      exact plain op target (same.symm.trans found)
    rw [widenCondition.atOther (Nat.lt_of_lt_of_le bound grown) other, same]
  · intro n bound op₀ target₀ was single
    obtain ⟨op', now, origin⟩ := r.jumps n bound op₀ target₀ was single
    have other : n ≠ node := by
      rintro rfl
      rw [now] at found
      cases found
      rcases origin with rfl | wide
      · rw [single] at opposite
        cases opposite
      · rw [(Opcode.invert?_of_farForm? wide).2.1] at opposite
        cases opposite
    exact ⟨op', (widenCondition.atOther (Nat.lt_of_lt_of_le bound grown) other).trans now, origin⟩
  · intro placed n member' label
    have targetPlaced : target.node ∈ d.order.toList := by
      apply r.targets placed node member
      rw [found]
      exact List.mem_singleton.mpr rfl
    rcases nodes.mp member' with rfl | rfl | known
    · rw [widenCondition.atHop inside]
      intro none
      cases none
    · rw [widenCondition.atJump inside, Instruction.targets, List.mem_singleton]
      rintro rfl
      exact nodes.mpr (.inr (.inr targetPlaced))
    · by_cases same : n = node
      · subst same
        rw [widenCondition.atNode inside, Instruction.targets, List.mem_singleton]
        rintro rfl
        exact nodes.mpr (.inl rfl)
      · rw [widenCondition.atOther (valid.inside known) same]
        exact fun target => nodes.mpr (.inr (.inr (r.targets placed n known label target)))

open Layout.Pass in
theorem Retains.widened {old : Draft} (valid : old.Valid) (w : Widened old d) : Retains old d := by
  induction w with
  | refl => exact .refl valid
  | tail first last ih =>
      have now := valid_widened valid first
      cases last with
      | jump member found form => exact ih.jump now member found form
      | condition member found form opposite => exact ih.condition now member found opposite

open Layout.Pass in
/-- Control goes from a node where it went before all widening. -/
theorem arrives_widened (valid : d.Valid) (w : Widened d d') (opposed : Opposed holds) {n : Nat}
    (inside : n < d.nodes.size) : d'.Arrives holds d.nodes.size n (d.goesTo holds n) := by
  induction w with
  | refl => exact .stop rfl fun m => goesTo_lt_size valid
  | tail first last ih =>
      have r := Retains.widened valid first
      exact last.arrives (valid_widened valid first) opposed r.size
        (Nat.lt_of_lt_of_le inside r.size) ih

end Draft

section Distances

variable {d : Draft} {pool : Pool} {offsets : Offsets} {offset : Nat} {nodes : List NodeId}
  {code : Bytes}

/-- The bytes of a node, and the code before and after them. -/
theorem Written.mem (h : Written d pool offsets offset nodes code) {n : NodeId}
    (member : n ∈ nodes) :
    ∃ (before bytes after : Bytes), code = before ++ bytes ++ after ∧
      offsets.of? n = some (offset + before.length) ∧
      d.encode pool offsets (offset + before.length) (d.instructionAt n) =
        .ok (.bytes bytes true) := by
  induction h with
  | nil => cases member
  | @cons offset node rest first more here bytes later ih =>
      rcases List.mem_cons.mp member with rfl | behind
      · exact ⟨[], first, more, rfl, here, bytes⟩
      · obtain ⟨before, mid, after, rfl, there, encoded⟩ := ih behind
        refine ⟨first ++ before, mid, after, by simp, ?_, ?_⟩
        · rw [there, List.length_append, Nat.add_assoc]
        · rw [← encoded, List.length_append, Nat.add_assoc]

/-- The bytes of a jump at an offset hold a distance as it is, in two or in four bytes. -/
def JumpsBy (code : Bytes) (offset : Nat) (op : Opcode) (distance : Int) : Prop :=
  if op.isFar then
    ∃ word : Int32, word.toInt = distance ∧ (op :: be32 word.toUInt32) <+: code.drop offset
  else ∃ word : Int16, word.toInt = distance ∧ (op :: be16 word.toUInt16) <+: code.drop offset

/-- Between places in the same code every distance is exact. -/
theorem Written.jumpsBy (h : Written d pool offsets 0 nodes code) (short : code.length ≤ 65535)
    {n : NodeId} (member : n ∈ nodes) {op : Opcode} {target : Label}
    (found : d.instructionAt n = .branch op target) (placed : target.node ∈ nodes) :
    ∃ here there, offsets.of? n = some here ∧ offsets.of? target.node = some there ∧
      JumpsBy code here op ((there : Int) - here) := by
  obtain ⟨before, bytes, after, split, here, encoded⟩ := h.mem member
  obtain ⟨before', bytes', after', split', there, -⟩ := h.mem placed
  rw [Nat.zero_add] at here there encoded
  refine ⟨before.length, before'.length, here, there, ?_⟩
  have low : before.length ≤ 65535 := by
    rw [split, List.length_append, List.length_append] at short
    omega
  have high : before'.length ≤ 65535 := by
    rw [split', List.length_append, List.length_append] at short
    omega
  have drop : code.drop before.length = bytes ++ after := by
    rw [split, List.append_assoc, List.drop_left]
  rw [found, Draft.encode, Encoding.branch, there, Except.ok.injEq] at encoded
  dsimp only at encoded
  unfold JumpsBy
  rw [drop]
  split at encoded
  · rename_i far
    cases encoded
    rw [if_pos far]
    exact ⟨_, Int32.toInt_ofInt_of_le (by omega) (by omega), List.prefix_append _ _⟩
  · rename_i near
    split at encoded
    · rename_i fits
      cases encoded
      rw [if_neg near]
      exact ⟨_, Int16.toInt_ofInt_of_le (by omega) (by omega), List.prefix_append _ _⟩
    · cases encoded

end Distances

namespace Draft

theorem mem_order_of_isPlaced {d : Draft} (valid : d.Valid) {label : Label}
    (placed : d.isPlaced label = true) : label.node ∈ d.order.toList := by
  rw [isPlaced, Bool.and_eq_true] at placed
  exact (valid.placed _).mpr placed.2

/-- A layout keeps control flow. Without the nodes that it put in, which are far jumps and labels
behind them, the sequence is the one there was. A conditional jump still goes to its target if
its condition holds and on to its next node if not, through new nodes at most; other jumps keep
their targets, and all else is unchanged. Every jump in the code holds exactly the distance from
its own offset to that of its target. -/
theorem layout_control_flow {d d' : Draft} {pool : Pool} {l : Layout} (reachable : d.Reachable)
    (placed : ∀ n ∈ d.order.toList, ∀ label ∈ (d.instructionAt n).targets,
      d.isPlaced label = true)
    (h : d.layout pool = (.ok l, d')) :
    d'.order.toList.filter (fun n => decide (n < d.nodes.size)) = d.order.toList ∧
      (∀ n ∈ d'.order.toList, d.nodes.size ≤ n →
        d'.instructionAt n = .label ∨ ∃ target, d'.instructionAt n = .branch Opcode.goto_w target) ∧
      (∀ n ∈ d.order.toList, ∀ op target, d.instructionAt n = .branch op target →
        op.invert? ≠ none → ∀ holds, Opposed holds →
          d'.Arrives holds d.nodes.size n (if holds op then some target.node else d.next? n)) ∧
      (∀ n ∈ d.order.toList, ∀ op target, d.instructionAt n = .branch op target →
        op.invert? = none →
          ∃ op', d'.instructionAt n = .branch op' target ∧ (op' = op ∨ op.farForm? = some op')) ∧
      (∀ n ∈ d.order.toList, (∀ op target, d.instructionAt n ≠ .branch op target) →
        d'.instructionAt n = d.instructionAt n) ∧
      Written d' pool l.offsets 0 d'.order.toList l.code ∧
      ∀ n ∈ d'.order.toList, ∀ op target, d'.instructionAt n = .branch op target →
        ∃ here there, l.offsets.of? n = some here ∧ l.offsets.of? target.node = some there ∧
          JumpsBy l.code here op ((there : Int) - here) := by
  have valid := reachable.valid
  have widened := Layout.layout_widens valid h
  have r := Retains.widened valid widened
  obtain ⟨written, short⟩ := Layout.layout_written valid h
  have targets := r.targets fun n member label target =>
    mem_order_of_isPlaced valid (placed n member label target)
  refine ⟨r.order, r.inserted, ?_, ?_, ?_, written, ?_⟩
  · intro n member op target found conditional holds opposed
    have arrives := arrives_widened valid widened opposed (valid.inside member)
    rw [goesTo_branch found,
      Option.isNone_eq_false_iff.mpr (Option.isSome_iff_ne_none.mpr conditional),
      Bool.false_or] at arrives
    exact arrives
  · intro n member
    exact r.jumps n (valid.inside member)
  · intro n member
    exact r.ordinary n (valid.inside member)
  · intro n member op target found
    have there := targets n member target (by rw [found]; exact List.mem_singleton.mpr rfl)
    exact written.jumpsBy short member found there

end Draft

end JvmAssembly
