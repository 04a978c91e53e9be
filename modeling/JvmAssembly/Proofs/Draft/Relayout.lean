import Mathlib
import JvmAssembly.Proofs.Draft.Passes

/-!
Layout of a draft that layout has been over. It begins without offsets, but every node comes to the
offset it had: lengths do not depend on which targets are known, and a distance that is known is a
final one, so no jump is found too far. The draft stays as it is and the code is the same.
-/
namespace JvmAssembly

/-- Offsets that are known are those of the other. -/
def Offsets.Within (offsets final : Offsets) : Prop :=
  ∀ n, offsets.of? n = none ∨ offsets.of? n = final.of? n

theorem Offsets.ext_of? {offsets offsets' : Offsets} (size : offsets.size = offsets'.size)
    (same : ∀ n, offsets.of? n = offsets'.of? n) : offsets = offsets' := by
  refine Array.ext size fun n inside inside' => ?_
  have cell := same n
  unfold of? at cell
  rwa [Array.getElem?_eq_getElem inside, Array.getElem?_eq_getElem inside'] at cell

namespace Draft

variable {d : Draft} {pool : Pool} {offsets final : Offsets} {offset : Nat} {x : Instruction}
  {code : Bytes}

/-- Bytes are settled only if every target is known. -/
theorem targets_known (h : d.encode pool offsets offset x = .ok (.bytes code true))
    {label : Label} (member : label ∈ x.targets) : (offsets.of? label.node).isSome = true := by
  cases x with
  | branch op target =>
      cases List.mem_singleton.mp member
      rw [encode, Encoding.branch, Except.ok.injEq] at h
      cases known : offsets.of? label.node with
      | none =>
          rw [known] at h
          cases h
      | some there => rfl
  | switch default cases table =>
      have settled : ((offsets.of? default.node).isSome &&
          cases.all fun c => (offsets.of? c.2.node).isSome) = true := by
        simp only [encode, Encoding.switch, Except.ok.injEq] at h
        split at h
        · exact (Encoding.bytes.inj h).2
        · exact (Encoding.bytes.inj h).2
      rw [Bool.and_eq_true, List.all_eq_true] at settled
      rcases List.mem_append.mp member with inCase | last
      · obtain ⟨c, row, rfl⟩ := List.mem_map.mp inCase
        exact settled.2 c row
      · cases List.mem_singleton.mp last
        exact settled.1
  | _ => cases member

/-- With fewer targets known an instruction still has bytes, as many as with all of them. -/
theorem encode_within (h : d.encode pool final offset x = .ok (.bytes code true))
    (within : offsets.Within final) :
    ∃ code' known, d.encode pool offsets offset x = .ok (.bytes code' known) ∧
      code'.length = code.length ∧ (known = true → code' = code) := by
  have found : ∃ code' known, d.encode pool offsets offset x = .ok (.bytes code' known) := by
    by_cases all : ∀ label ∈ x.targets, offsets.of? label.node = final.of? label.node
    · exact ⟨code, true, (encode_congr rfl all).trans h⟩
    · push Not at all
      obtain ⟨label, member, other⟩ := all
      have unknown := (within label.node).resolve_right other
      cases x with
      | branch op target =>
          cases List.mem_singleton.mp member
          rw [encode, Encoding.branch, unknown]
          exact ⟨_, _, rfl⟩
      | switch default cases table =>
          simp only [encode, Encoding.switch]
          split
          · exact ⟨_, _, rfl⟩
          · exact ⟨_, _, rfl⟩
      | _ => cases member
  obtain ⟨code', known, encoded⟩ := found
  refine ⟨code', known, encoded, ?_, ?_⟩
  · have span : d.Spans pool x offset (offset + code.length) := ⟨_, _, _, h, rfl⟩
    have span' : d.Spans pool x offset (offset + code'.length) := ⟨_, _, _, encoded, rfl⟩
    have le := span.mono span' (Nat.le_refl _)
    have ge := span'.mono span (Nat.le_refl _)
    omega
  · rintro rfl
    have all : ∀ label ∈ x.targets, offsets.of? label.node = final.of? label.node := by
      intro label member
      refine (within label.node).resolve_left fun unknown => ?_
      have known := targets_known encoded member
      rw [unknown] at known
      cases known
    rw [encode_congr rfl all, h] at encoded
    cases encoded
    rfl

end Draft

theorem Written.targets_known {d : Draft} {pool : Pool} {offsets : Offsets} {offset : Nat}
    {nodes : List NodeId} {code : Bytes} (h : Written d pool offsets offset nodes code)
    {n : NodeId} (member : n ∈ nodes) {label : Label}
    (target : label ∈ (d.instructionAt n).targets) :
    (offsets.of? label.node).isSome = true := by
  induction h with
  | nil => cases member
  | cons here bytes later ih =>
      rcases List.mem_cons.mp member with rfl | behind
      · exact Draft.targets_known bytes target
      · exact ih behind

namespace Layout.Pass

open Draft

variable {pool : Pool} {final : Offsets} {p : Pass} {rest : List NodeId} {bytes : Bytes}

/-- What a run does over nodes that have their final form. -/
structure Repeats (final : Offsets) (p : Pass) (rest : List NodeId) (bytes : Bytes) (q : Pass) :
    Prop where
  draft : q.draft = p.draft
  order : q.order.toList = p.order.toList ++ rest
  within : q.offsets.Within final
  size : q.offsets.size = p.offsets.size
  placed : ∀ n, n ∈ rest ∨ p.offsets.of? n = final.of? n → q.offsets.of? n = final.of? n
  length : q.code.size = p.code.size + bytes.length
  code : q.settled = true → p.settled = true ∧ q.code.toList = p.code.toList ++ bytes

theorem within_mark {node : Nat} {isLabel : Bool} (within : p.offsets.Within final)
    (inside : node < p.offsets.size) (here : final.of? node = some p.code.size) :
    (p.mark node isLabel).offsets.Within final ∧
      ∀ n, n = node ∨ p.offsets.of? n = final.of? n →
        (p.mark node isLabel).offsets.of? n = final.of? n := by
  have atNode : (p.mark node isLabel).offsets.of? node = final.of? node :=
    (of?_mark inside).trans here.symm
  refine ⟨?_, ?_⟩
  · intro n
    by_cases same : n = node
    · exact .inr (same ▸ atNode)
    · rw [of?_mark_ne same]
      exact within n
  · intro n known
    by_cases same : n = node
    · exact same ▸ atNode
    · rw [of?_mark_ne same]
      exact known.resolve_left same

theorem run_repeats (written : Written p.draft pool final p.code.size rest bytes)
    (within : p.offsets.Within final) (inside : ∀ n ∈ rest, n < p.offsets.size) :
    ∃ q, run pool rest p = (.ok (), q) ∧ Repeats final p rest bytes q := by
  generalize start : p.code.size = offset at written
  generalize same : p.draft = d at written
  induction written generalizing p with
  | nil =>
      refine ⟨p, rfl, rfl, (List.append_nil _).symm, within, rfl, ?_, rfl, ?_⟩
      · exact fun n known => known.resolve_left List.not_mem_nil
      · exact fun settled => ⟨settled, (List.append_nil _).symm⟩
  | @cons offset node rest code more here encoded later ih =>
      subst start same
      have bound := inside node List.mem_cons_self
      obtain ⟨within', placed⟩ := @within_mark final p node
        (p.draft.instructionAt node).isLabel within bound here
      obtain ⟨code', known, encoded', length, exact'⟩ := encode_within encoded within'
      have stepped : p.step pool node =
          (.ok (), (p.mark node (p.draft.instructionAt node).isLabel).write node code' known) := by
        unfold step
        dsimp only
        rw [mark_draft, mark_code, encoded']
      have size : (p.code ++ code').size = p.code.size + code.length := by
        rw [size_append, length]
      obtain ⟨q, ran, rep⟩ := @ih
        ((p.mark node (p.draft.instructionAt node).isLabel).write node code' known) within'
        (by
          intro n member
          rw [write, size_mark]
          exact inside n (List.mem_cons_of_mem _ member))
        (by rw [write, mark_code, size]) (by rw [write, mark_draft])
      refine ⟨q, ?_, ?_, ?_, rep.within, ?_, ?_, ?_, ?_⟩
      · rw [run, stepped]
        exact ran
      · rw [rep.draft, write, mark_draft]
      · rw [rep.order, write, mark_order, Array.toList_push, List.append_assoc,
          List.singleton_append]
      · rw [rep.size, write, size_mark]
      · rintro n (member | known)
        · rcases List.mem_cons.mp member with rfl | behind
          · exact rep.placed n (.inr (placed n (.inl rfl)))
          · exact rep.placed n (.inl behind)
        · exact rep.placed n (.inr (placed n (.inr known)))
      · rw [rep.length, write, mark_code, size, List.length_append]
        omega
      · intro settled
        obtain ⟨before, whole⟩ := rep.code settled
        rw [write, mark_settled, Bool.and_eq_true] at before
        refine ⟨before.1, ?_⟩
        rw [whole, write, mark_code, Array.toList_appendList, exact' before.2, List.append_assoc]

end Layout.Pass

namespace Layout

open Draft Pass

variable {pool : Pool} {d d' : Draft} {offsets : Offsets} {l : Layout}

/-- What layout leaves behind. -/
structure Settled (pool : Pool) (d : Draft) (l : Layout) : Prop where
  valid : d.Valid
  sized : l.offsets.size = d.nodes.size
  unplaced : ∀ n ∉ d.order.toList, l.offsets.of? n = none
  written : Written d pool l.offsets 0 d.order.toList l.code
  short : l.code.length ≤ 65535

theorem Settles.settled (settles : Settles pool offsets d l d') (valid : d.Valid)
    (sized : offsets.size = d.nodes.size)
    (unplaced : ∀ n ∉ d.order.toList, offsets.of? n = none) : Settled pool d' l := by
  induction settles with
  | last passed short still settled =>
      exact ⟨valid_widened valid (pass_widens valid passed), sized_pass sized passed,
        fun _ => unplaced_pass valid sized unplaced passed,
        pass_written valid sized passed settled still, by simpa using short⟩
  | more passed _ ih =>
      exact ih (valid_widened valid (pass_widens valid passed)) (sized_pass sized passed)
        fun _ => unplaced_pass valid sized unplaced passed

theorem layout_settled (valid : d.Valid) (h : d.layout pool = (.ok l, d')) :
    Settled pool d' l :=
  (settles_of_settle h).settled valid (by simp) fun n _ => Offsets.of?_replicate_none _ n

theorem Settled.targets (settled : Settled pool d l) {n : NodeId} (member : n ∈ d.order.toList)
    {label : Label} (target : label ∈ (d.instructionAt n).targets) :
    label.node ∈ d.order.toList := by
  by_contra absent
  have unknown := settled.unplaced label.node absent
  have known := settled.written.targets_known member target
  rw [unknown] at known
  cases known

/-- A pass over what layout has left changes nothing and finds the offsets again. -/
theorem Settled.pass (settled : Settled pool d l) (sized : offsets.size = d.nodes.size)
    (within : offsets.Within l.offsets) :
    ∃ p, pass pool d offsets = (.ok (), p) ∧ p.draft = d ∧ p.offsets = l.offsets ∧
      p.code.size = l.code.length ∧ (p.settled = true → p.code.toList = l.code) := by
  have inside : ∀ n ∈ d.order.toList, n < offsets.size := fun n member =>
    sized ▸ settled.valid.inside member
  obtain ⟨q, ran, rep⟩ := @run_repeats pool l.offsets
    ⟨{ d with order := #[] }, #[], offsets, #[], false, true⟩ d.order.toList l.code
    (written_reorder settled.written) within inside
  have order : q.order = d.order := Array.toList_inj.mp (rep.order.trans (List.nil_append _))
  refine ⟨⟨{ q.draft with order := q.order }, #[], q.offsets, q.code, q.moved, q.settled⟩,
    ?_, ?_, ?_, ?_, ?_⟩
  · unfold Layout.pass
    dsimp only
    rw [ran]
  · dsimp only
    rw [order, rep.draft]
  · refine Offsets.ext_of? (rep.size.trans (sized.trans settled.sized.symm)) fun n => ?_
    by_cases member : n ∈ d.order.toList
    · exact rep.placed n (.inl member)
    · rw [settled.unplaced n member]
      exact (rep.within n).elim (fun unknown => unknown) fun same =>
        same.trans (settled.unplaced n member)
  · exact rep.length.trans (Nat.zero_add _)
  · exact fun known => (rep.code known).2.trans (List.nil_append _)

theorem eq_nil_of_bare (valid : d.Valid) (bare : d.nodes.size = 0) : d.order.toList = [] := by
  rw [List.eq_nil_iff_forall_not_mem]
  intro n member
  have inside := valid.inside member
  omega

/-- If layout ends with a pass over what it has left, it ends as before. -/
theorem Settled.ending_pass (settled : Settled pool d l) (sized : offsets.size = d.nodes.size)
    (within : offsets.Within l.offsets) :
    ending (Layout.pass pool d offsets) = none ∨
      ending (Layout.pass pool d offsets) = some (.ok l, d) := by
  obtain ⟨p, passed, draft, offsets', length, code⟩ := settled.pass sized within
  rw [passed, ending, length, if_neg (Nat.not_lt.mpr settled.short)]
  split
  · rename_i last
    rw [Bool.and_eq_true] at last
    rw [code last.2, draft, offsets']
    exact .inr rfl
  · exact .inl rfl

/-- With all offsets found again it does end. -/
theorem Settled.ending_again (settled : Settled pool d l) :
    ending (Layout.pass pool d l.offsets) = some (.ok l, d) := by
  have ready : Ready d l.offsets := ⟨settled.valid, fun n member label => settled.targets member,
    settled.sized, settled.unplaced⟩
  have within : l.offsets.Within l.offsets := fun n => .inr rfl
  refine (settled.ending_pass settled.sized within).resolve_left fun goes => ?_
  obtain ⟨q, again, -, still, -⟩ := settled.pass settled.sized within
  obtain ⟨p, passed, -, more⟩ := ending_eq_none goes
  cases again.symm.trans passed
  exact more (pass_still ready again fun n _ => by rw [still])

theorem Settled.settle (settled : Settled pool d l) (sized : offsets.size = d.nodes.size)
    (within : offsets.Within l.offsets) {budget : Nat} (enough : 2 ≤ budget) :
    settle pool budget offsets d = (.ok l, d) := by
  obtain ⟨budget, rfl⟩ := Nat.exists_eq_add_of_le enough
  obtain ⟨p, passed, draft, offsets', -⟩ := settled.pass sized within
  rw [Nat.add_comm, settle_succ]
  rcases settled.ending_pass sized within with goes | ends
  · rw [goes, Option.getD_none, passed, draft, offsets', settle_succ, settled.ending_again]
    rfl
  · rw [ends]
    rfl

/-- Layout goes over what it has left once or twice. -/
theorem Settled.nth_cases (settled : Settled pool d l) (sized : offsets.size = d.nodes.size)
    (within : offsets.Within l.offsets) {k : Nat} {out : Except Fault Unit × Pass}
    (h : nth pool offsets d k = some out) :
    k = 0 ∧ out = Layout.pass pool d offsets ∨ k = 1 ∧ out = Layout.pass pool d l.offsets := by
  obtain ⟨p, passed, draft, offsets', -⟩ := settled.pass sized within
  cases k with
  | zero =>
      cases h
      exact .inl ⟨rfl, rfl⟩
  | succ k =>
      rw [nth] at h
      rcases settled.ending_pass sized within with goes | ends
      · rw [goes, passed] at h
        dsimp only at h
        rw [draft, offsets'] at h
        cases k with
        | zero =>
            cases h
            exact .inr ⟨rfl, rfl⟩
        | succ k =>
            rw [nth, settled.ending_again] at h
            cases h
      · rw [ends] at h
        cases h

/-- Layout comes to the one that is settled. -/
theorem Settled.layout (settled : Settled pool d l) : d.layout pool = (.ok l, d) := by
  have unknown : Offsets.Within (Array.replicate d.nodes.size none) l.offsets := fun n =>
    .inl (Offsets.of?_replicate_none _ n)
  by_cases bare : d.nodes.size = 0
  · -- Without a node there is one pass only, and nothing to write in it.
    obtain ⟨p, passed, draft, offsets, length, code⟩ :=
      settled.pass Array.size_replicate unknown
    have flags : p.moved = false ∧ p.settled = true := by
      unfold Layout.pass at passed
      rw [eq_nil_of_bare settled.valid bare] at passed
      cases passed
      exact ⟨rfl, rfl⟩
    rw [Draft.layout, passBudget, Layout.settle, passed]
    dsimp only
    rw [length, if_neg (Nat.not_lt.mpr settled.short), flags.1, flags.2, draft, offsets,
      code flags.2]
    rfl
  · refine settled.settle Array.size_replicate unknown ?_
    unfold passBudget
    omega

/-- Layout changes nothing in a draft that it has left, and answers the same. -/
theorem layout_layout (valid : d.Valid) (h : d.layout pool = (.ok l, d')) :
    d'.layout pool = (.ok l, d') :=
  (layout_settled valid h).layout

end Layout

end JvmAssembly
