import Mathlib
import JvmAssembly.Proofs.Draft.Stability

/-!
Rows of exception handlers. A handler guards the nodes between two labels, and its row guards
bytes: a node has its bytes in the row exactly if it stands between the labels, also a node that
widening put in. Since only labels take no bytes, a handler has no row exactly if nothing else
stands between its labels.
-/
namespace JvmAssembly

/-- Where each item has a result or is passed over, the results are those of the items left. -/
theorem forall₂_filterMap {α β : Type} {F : α → Option β → Prop} {R : α → β → Prop}
    {keep : α → Bool} {items : List α} {results : List (Option β)}
    (each : List.Forall₂ F items results)
    (choice : ∀ a ∈ items, ∀ result, F a result → keep a = false ∧ result = none ∨
      keep a = true ∧ ∃ b, result = some b ∧ R a b) :
    List.Forall₂ R (items.filter keep) (results.filterMap fun result => result) := by
  induction each with
  | nil => exact .nil
  | @cons a result items results first later ih =>
      have rest := ih fun a member => choice a (List.mem_cons_of_mem _ member)
      rcases choice a List.mem_cons_self result first with ⟨passed, rfl⟩ | ⟨kept, b, rfl, related⟩
      · rwa [List.filter_cons_of_neg (by rw [passed]; exact Bool.false_ne_true),
          List.filterMap_cons_none rfl]
      · rw [List.filter_cons_of_pos kept]
        exact .cons related rest

namespace Draft

/-- A placed node that is no label. -/
def Solid (d : Draft) (n : NodeId) : Prop :=
  n ∈ d.order.toList ∧ (d.instructionAt n).isLabel = false

/-- In the sequence, the one node comes before the other. -/
def Precedes (d : Draft) (m n : NodeId) : Prop :=
  d.order.toList.idxOf m < d.order.toList.idxOf n

/-- The node stands between the labels of the handler. -/
def Encloses (d : Draft) (h : Handler) (n : NodeId) : Prop :=
  d.Precedes h.start.node n ∧ d.Precedes n h.stop.node

instance (d : Draft) (n : NodeId) : Decidable (d.Solid n) :=
  inferInstanceAs (Decidable (_ ∧ _))

instance (d : Draft) (m n : NodeId) : Decidable (d.Precedes m n) :=
  inferInstanceAs (Decidable (_ < _))

instance (d : Draft) (h : Handler) (n : NodeId) : Decidable (d.Encloses h n) :=
  inferInstanceAs (Decidable (_ ∧ _))

/-- Something other than a label stands between the labels of the handler. -/
def guardsSome (d : Draft) (h : Handler) : Bool :=
  d.order.toList.any fun n => decide (d.Solid n ∧ d.Encloses h n)

/-- The first node at or behind the label that is no label. -/
def firstFrom (d : Draft) (label : Label) : Option NodeId :=
  d.order.toList.find? fun n => decide (d.Solid n ∧ ¬ d.Precedes n label.node)

/-- The row says of the bytes of a draft what the handler says of its nodes. -/
structure Tabled (pool : Pool) (d : Draft) (offsets : Offsets) (size : Nat) (h : Handler)
    (row : HandlerRow) : Prop where
  start : offsets.of? h.start.node = some row.startPc.toNat
  stop : offsets.of? h.stop.node = some row.endPc.toNat
  covers : ∀ n offset, d.Solid n → offsets.of? n = some offset →
    (row.startPc.toNat ≤ offset ∧ offset < row.endPc.toNat ↔ d.Encloses h n)
  entry : row.handlerPc.toNat = ((d.firstFrom h.entry).bind offsets.of?).getD size
  catches : ∀ ref, h.catchType = some ref → pool.indexOf ref = .ok row.catchType
  catchesAll : h.catchType = none → row.catchType = 0

variable {d d' : Draft} {pool : Pool} {l : Layout}

theorem idxOf_order (valid : d.Valid) {n : NodeId} {i : Nat}
    (stored : d.order.toList[i]? = some n) : d.order.toList.idxOf n = i := by
  obtain ⟨inside, rfl⟩ := List.getElem?_eq_some_iff.mp stored
  exact valid.nodup.idxOf_getElem i inside

theorem solid_iff {n : NodeId} {i : Nat} (stored : d.order.toList[i]? = some n) :
    d.Solid n ↔ ∃ x, d.at? i = some x ∧ x.isLabel = false := by
  rw [at?, stored, Option.map_some]
  constructor
  · intro solid
    exact ⟨_, rfl, solid.2⟩
  · rintro ⟨x, same, solid⟩
    cases same
    exact ⟨List.mem_of_getElem? stored, solid⟩

theorem PlacedAt.idxOf {label : Label} {i : Nat} (placed : d.PlacedAt label i) (valid : d.Valid) :
    d.order.toList.idxOf label.node = i :=
  idxOf_order valid placed.2

theorem handlerRow_eq_ok {h : Handler} {result : Option HandlerRow}
    (made : handlerRow pool l h = .ok result) :
    l.offsetOf (some h.start.node) ≥ l.offsetOf (some h.stop.node) ∧ result = none ∨
      l.offsetOf (some h.start.node) < l.offsetOf (some h.stop.node) ∧
        ∃ index, result = some ⟨l.offsetOf (some h.start.node), l.offsetOf (some h.stop.node),
            l.offsetOf (some h.entry.node), index⟩ ∧
          (∀ ref, h.catchType = some ref → pool.indexOf ref = .ok index) ∧
          (h.catchType = none → index = 0) := by
  unfold handlerRow at made
  dsimp only at made
  split at made
  · rename_i empty
    cases made
    exact .inl ⟨empty, rfl⟩
  · rename_i sized
    refine .inr ⟨UInt16.not_le.mp sized, ?_⟩
    cases caught : h.catchType with
    | none =>
        rw [caught] at made
        cases made
        refine ⟨0, rfl, ?_, fun _ => rfl⟩
        intro ref named
        cases named
    | some ref =>
        rw [caught] at made
        obtain ⟨index, found, done⟩ := bind_eq_ok.mp made
        cases done
        refine ⟨index, rfl, ?_, ?_⟩
        · intro ref named
          cases named
          exact found
        · intro unnamed
          cases unnamed

end Draft

namespace Layout.Settled

open Draft

variable {pool : Pool} {d : Draft} {l : Layout} (settled : Settled pool d l)

include settled

/-- Where offsets differ, something with bytes stands between. -/
theorem exists_solid {i j : Nat} (bound : j ≤ d.order.toList.length)
    (less : l.offsetAt d.order.toList i < l.offsetAt d.order.toList j) :
    ∃ k n, i ≤ k ∧ k < j ∧ d.order.toList[k]? = some n ∧ d.Solid n := by
  have le : i ≤ j := by
    by_contra past
    exact Nat.not_le.mpr less (settled.monotone_offsetAt (Nat.le_of_not_le past))
  obtain ⟨k, low, high, start, stop⟩ := Runs.exists_between le (Nat.le_refl _) less
  have inside : k < d.order.toList.length := Nat.lt_of_lt_of_le high bound
  obtain ⟨x, here⟩ := exists_at?.mpr inside
  have stored := List.getElem?_eq_getElem inside
  have sized := (settled.offsetAt_lt_succ here).mp (Nat.lt_of_le_of_lt start stop)
  exact ⟨k, _, low, high, stored, (solid_iff stored).mpr ⟨x, here, sized⟩⟩

/-- A label has the offset of what comes first behind it. -/
theorem offsetAt_firstFrom {label : Label} {i : Nat} (placed : d.PlacedAt label i) :
    l.offsetAt d.order.toList i =
      ((d.firstFrom label).bind l.offsets.of?).getD l.code.length := by
  have from_i : ∀ {k : Nat} {n : NodeId}, d.order.toList[k]? = some n →
      (¬ d.Precedes n label.node ↔ i ≤ k) := by
    intro k n stored
    rw [Precedes, placed.idxOf settled.valid, idxOf_order settled.valid stored, Nat.not_lt]
  cases found : d.firstFrom label with
  | none =>
      rw [Option.bind_none, Option.getD_none]
      have none := List.find?_eq_none.mp found
      refine Nat.le_antisymm (settled.offsetAt_le i) (Nat.le_of_not_lt fun less => ?_)
      -- Something with bytes would be left up to the end of the sequence.
      rw [← l.offsetAt_end (Nat.le_refl d.order.toList.length)] at less
      obtain ⟨k, n, low, -, stored, solid⟩ := settled.exists_solid (Nat.le_refl _) less
      exact none n (List.mem_of_getElem? stored)
        (decide_eq_true ⟨solid, (from_i stored).mpr low⟩)
  | some n =>
      obtain ⟨holds, k, inside, rfl, first⟩ := List.find?_eq_some_iff_getElem.mp found
      have stored := List.getElem?_eq_getElem inside
      obtain ⟨-, behind⟩ := of_decide_eq_true holds
      rw [Option.bind_some, settled.of?_eq stored, Option.getD_some]
      refine Nat.le_antisymm (settled.monotone_offsetAt ((from_i stored).mp behind))
        (Nat.le_of_not_lt fun less => ?_)
      -- Something with bytes would come before the node that is the first of these.
      obtain ⟨j, m, low, high, stored', solid⟩ :=
        settled.exists_solid (Nat.le_of_lt inside) less
      obtain ⟨inside', rfl⟩ := List.getElem?_eq_some_iff.mp stored'
      have skipped := first j high
      rw [Bool.not_eq_true', decide_eq_false_iff_not] at skipped
      exact skipped ⟨solid, (from_i stored').mpr low⟩

theorem toNat_offsetOf {label : Label} {i : Nat} (placed : d.PlacedAt label i) :
    (l.offsetOf (some label.node)).toNat = l.offsetAt d.order.toList i := by
  have bound := Nat.le_trans (settled.offsetAt_le i) settled.short
  rw [← placed.2, offsetOf_eq, UInt16.toNat_ofNat_of_lt' (by simp [UInt16.size]; omega)]

section Enclosing

variable {h : Handler} {start stop : Nat} (own : d.OwnsLabel h.start)
  (first : d.PlacedAt h.start start) (last : d.PlacedAt h.stop stop)

include own first last

/-- Between the labels of a handler is what has its bytes between their offsets. -/
theorem encloses_iff {n : NodeId} {i : Nat} (stored : d.order.toList[i]? = some n)
    (solid : d.Solid n) :
    l.offsetAt d.order.toList start ≤ l.offsetAt d.order.toList i ∧
      l.offsetAt d.order.toList i < l.offsetAt d.order.toList stop ↔ d.Encloses h n := by
  obtain ⟨x, here, sized⟩ := (solid_iff stored).mp solid
  -- The start is a label, so what is not before it is behind it.
  have other : start ≠ i := by
    rintro rfl
    cases first.2.symm.trans stored
    obtain ⟨placed, label⟩ := own.2
    have none := solid.2
    rw [instructionAt_of_getElem? label] at none
    cases none
  rw [← Nat.not_lt, settled.offsetAt_lt_iff here sized, settled.offsetAt_lt_iff here sized,
    Encloses, Precedes, Precedes, first.idxOf settled.valid, last.idxOf settled.valid,
    idxOf_order settled.valid stored]
  omega

/-- A handler guards something exactly if its end has a greater offset than its start. -/
theorem guardsSome_iff : d.guardsSome h = true ↔
    l.offsetAt d.order.toList start < l.offsetAt d.order.toList stop := by
  rw [guardsSome, List.any_eq_true]
  constructor
  · rintro ⟨n, member, holds⟩
    obtain ⟨solid, within⟩ := of_decide_eq_true holds
    obtain ⟨i, stored⟩ := List.mem_iff_getElem?.mp member
    obtain ⟨low, high⟩ := (settled.encloses_iff own first last stored solid).mpr within
    exact Nat.lt_of_le_of_lt low high
  · intro less
    have bound := (List.getElem?_eq_some_iff.mp last.2).1
    obtain ⟨i, n, low, high, stored, solid⟩ :=
      settled.exists_solid (Nat.le_of_lt bound) less
    obtain ⟨x, here, sized⟩ := (solid_iff stored).mp solid
    refine ⟨n, List.mem_of_getElem? stored, decide_eq_true ⟨solid, ?_⟩⟩
    exact (settled.encloses_iff own first last stored solid).mp
      ⟨settled.monotone_offsetAt low, (settled.offsetAt_lt_iff here sized).mpr high⟩

end Enclosing

/-- The row of a handler, or none if it guards nothing. -/
theorem tabled_handlerRow {h : Handler} {start stop entry : Nat} {result : Option HandlerRow}
    (own : d.OwnsLabel h.start) (first : d.PlacedAt h.start start)
    (last : d.PlacedAt h.stop stop) (caught : d.PlacedAt h.entry entry)
    (made : handlerRow pool l h = .ok result) :
    d.guardsSome h = false ∧ result = none ∨ d.guardsSome h = true ∧
      ∃ row, result = some row ∧ Tabled pool d l.offsets l.code.length h row := by
  have some := settled.guardsSome_iff own first last
  rw [← settled.toNat_offsetOf first, ← settled.toNat_offsetOf last,
    ← UInt16.lt_iff_toNat_lt] at some
  rcases handlerRow_eq_ok made with ⟨empty, rfl⟩ | ⟨sized, index, rfl, named, unnamed⟩
  · exact .inl ⟨Bool.eq_false_iff.mpr (some.not.mpr (UInt16.not_lt.mpr empty)), rfl⟩
  · refine .inr ⟨some.mpr sized, _, rfl, ?_, ?_, ?_, ?_, named, unnamed⟩
    · rw [settled.toNat_offsetOf first]
      exact settled.of?_eq first.2
    · rw [settled.toNat_offsetOf last]
      exact settled.of?_eq last.2
    · intro n offset solid known
      obtain ⟨i, stored⟩ := List.mem_iff_getElem?.mp solid.1
      cases (settled.of?_eq stored).symm.trans known
      rw [settled.toNat_offsetOf first, settled.toNat_offsetOf last]
      exact settled.encloses_iff own first last stored solid
    · rw [settled.toNat_offsetOf caught]
      exact settled.offsetAt_firstFrom caught

end Layout.Settled

namespace Draft

variable {d d' : Draft} {pool : Pool} {c : Code}

/-- The exception table of a resolved draft has a row for each handler that guards something, in
order, and the bytes of a row are those of what the handler guards. -/
theorem resolve_handlers (reachable : d.Reachable) (resolved : d.resolve pool = (.ok c, d')) :
    ∃ offsets, Written d' pool offsets 0 d'.order.toList c.code ∧
      List.Forall₂ (Tabled pool d' offsets c.code.length) (d.handlers.toList.filter d'.guardsSome)
        c.handlers := by
  obtain ⟨f, frame, ready, up, down, l, finished⟩ := exists_finished reachable.valid resolved
  obtain ⟨f', flow⟩ := finished.stretches.flow
  have settled := finished.settled
  have same : d'.handlers = d.handlers :=
    finished.stretches.handlers.trans finished.prepared.handlers
  obtain ⟨depth, assembled⟩ := finished.assembled
  obtain ⟨rows, -, made, -, rfl⟩ := assemble_eq_ok.mp assembled
  refine ⟨l.offsets, settled.written, ?_⟩
  rw [← same]
  refine forall₂_filterMap (mapM_eq_ok.mp made) ?_
  intro h member result row
  have member' : h ∈ d'.handlers := Array.mem_toList_iff.mp member
  obtain ⟨g, -, first, last, caught⟩ := guard_of_handler settled.valid flow member'
  exact settled.tabled_handlerRow (settled.valid.handlers h member').1 first last caught row

/-- The condition that is guarded is inverted over a far jump, which is then guarded too. -/
theorem resolve_handlers_straying : straying.Reachable ∧ ∃ c,
    straying.resolve names = (.ok c, strayed) ∧ c.handlers = [⟨32820, 32829, 32831, 0⟩] ∧
    straying.handlers.toList.map strayed.guardsSome = [false, true] ∧
    (∀ h ∈ straying.handlers, strayed.guardsSome h = true → strayed.Encloses h 14) ∧
    ∃ offsets, Written strayed names offsets 0 strayed.order.toList c.code ∧
      List.Forall₂ (Tabled names strayed offsets c.code.length)
        (straying.handlers.toList.filter strayed.guardsSome) c.handlers := by
  obtain ⟨c, resolved, rows⟩ := resolve_straying
  exact ⟨reachable_straying, c, resolved, rows, by decide, by decide,
    resolve_handlers reachable_straying resolved⟩

end Draft

end JvmAssembly
