import Mathlib
import JvmAssembly.Proofs.Builder.Creation
import JvmAssembly.Proofs.Builder.Edits
import JvmAssembly.Proofs.Draft.Evaluation
import JvmAssembly.Proofs.Draft.Liveness
import JvmAssembly.Proofs.Draft.ValueFlow
import JvmAssembly.Proofs.Draft.Writable

/-!
Copies of method bodies in a builder. All that a copy fixes are the slots of return addresses; every
other local of it is placed by the allocation, away from what is live in the method around it.
-/
namespace JvmAssembly

variable {lab loc : Type}

namespace Writing

variable {α β : Type}

/-- No slots are fixed but the given ones. -/
def PinsWithin (fixed : List UInt16) (s s' : Script lab loc) : Prop :=
  (∀ op ∈ s.ops.toList, ∀ slot ∈ op.pinned?, slot ∈ fixed) →
    ∀ op ∈ s'.ops.toList, ∀ slot ∈ op.pinned?, slot ∈ fixed

variable {fixed : List UInt16}

theorem pinsWithin_push {s : Script lab loc} {op : Op (Handle lab) (Handle loc)}
    (allowed : ∀ slot ∈ op.pinned?, slot ∈ fixed) {addresses : Array Nat}
    {labels : Std.HashMap Nat Nat} {slots : SlotMap loc} {locals : Nat} :
    PinsWithin fixed s ⟨s.ops.push op, addresses, labels, slots, locals⟩ := by
  intro before op' member
  rw [Array.toList_push, List.mem_append, List.mem_singleton] at member
  rcases member with old | rfl
  · exact before op' old
  · exact allowed

instance : Sparing (PinsWithin fixed : Script lab loc → Script lab loc → Prop) where
  refl _ before := before
  trans _ _ _ first second before := second (first before)
  emit {op} other s := by
    refine pinsWithin_push ?_
    rw [Op.pinned?_of_spares other]
    intro slot none
    cases none
  labelAt address s := by
    unfold Writing.labelAt
    split
    · exact fun before => before
    · refine pinsWithin_push ?_
      intro slot none
      cases none

theorem pins_localAt (slot : UInt16) (kind : LocalKind) :
    Takes (PinsWithin fixed) (localAt fixed slot kind : Writing lab loc (Handle loc)) := by
  intro s
  unfold localAt
  split
  · exact fun before => before
  · refine pinsWithin_push ?_
    split
    · rename_i here
      intro slot' same
      cases same
      exact here
    · intro slot' none
      cases none

theorem pins_emit {op : Op (Handle lab) (Handle loc)} (free : op.pinned? = none) :
    Takes (PinsWithin fixed) (emit op) := by
  intro s
  refine pinsWithin_push ?_
  rw [free]
  intro slot none
  cases none

theorem pins_instruction (k : Constants) (className : String) (exit : Option lab) (x : Decoded) :
    Takes (PinsWithin fixed) (instruction k className fixed exit x : Writing lab loc Unit) := by
  cases touched : x.touched? with
  | none => exact takes_instruction k className fixed exit touched
  | some use =>
      cases x with
      | access kind slot isStore =>
          cases isStore with
          | true => exact (pins_localAt slot kind).bind fun _ => pins_emit rfl
          | false => exact (pins_localAt slot kind).bind fun _ => pins_emit rfl
      | increment slot amount => exact (pins_localAt slot .int).bind fun _ => pins_emit rfl
      | ret slot => exact (pins_localAt slot .reference).bind fun _ => pins_emit rfl
      | _ => cases touched

theorem pins_listing (k : Constants) (b : Body) (exit : Option lab) (l : Listing) :
    Takes (PinsWithin l.returnSlots) (listing k b exit l : Writing lab loc Unit) := by
  unfold listing
  refine (takes_forM fun x _ => takes_forM fun t _ => (Sparing.labelAt t).discard).bind fun _ => ?_
  refine (takes_forM fun row _ => takes_handler k row).bind fun _ => ?_
  refine (takes_instructions k _ _ exit _ fun x _ => ?_).bind fun _ => takes_place _
  exact pins_instruction k b.className exit x.instruction

end Writing

/-- A script fixes no slots but those of return addresses. -/
theorem Body.pinned_disassemble (b : Body) (k : Constants) (typeOf : loc → Except Fault FieldType)
    (arguments : List loc) (exit : Option lab) :
    ∀ op ∈ (b.disassemble k typeOf arguments exit).ops, ∀ slot ∈ op.pinned?,
      slot ∈ (Listing.decode b.code).returnSlots := by
  unfold Body.disassemble
  dsimp only
  split
  · exact fun _ none => by cases none
  · split
    · exact fun _ none => by cases none
    · split
      · exact fun _ none => by cases none
      · rename_i slots bound
        have all := Writing.pins_listing k b exit (Listing.decode b.code)
          ⟨#[], #[], ∅, slots, 0⟩ (by simp)
        split
        · rename_i s ran
          rw [ran] at all
          exact all
        · rename_i fault s ran
          rw [ran] at all
          exact all

/-- A copy fixes no slots but those of the return addresses in the body. -/
theorem Body.works_copyInto (b : Body) (table : Pool.IndexTable) (arguments : Option (List Local))
    (exit : Option Label) (ws : Workspace) :
    Relation.ReflTransGen (Emit.Worked (· ∈ (Listing.decode b.code).returnSlots))
      ws (b.copyInto table arguments exit ws).2 := by
  have all := Emit.edits_run .empty _ (b.pinned_disassemble ⟨ws.pool, table⟩
    (fun v => (·.type) <$> ws.builder.draft.localInfo v) (arguments.getD ws.builder.arguments)
    exit) ws
  unfold Body.copyInto
  dsimp only
  split
  · rename_i fault ws' ran
    rw [ran] at all
    exact all
  · rename_i ws' ran
    rw [ran] at all
    exact all

theorem Body.edits_copyInto (b : Body) (table : Pool.IndexTable) (arguments : Option (List Local))
    (exit : Option Label) (ws : Workspace) :
    Relation.ReflTransGen (Draft.Edited (· ∈ (Listing.decode b.code).returnSlots))
      ws.builder.draft (b.copyInto table arguments exit ws).2.builder.draft :=
  Emit.drafts_of_worked (b.works_copyInto table arguments exit ws)

/-- The locals of a draft at two times: those that were there are the same up to their slots, and of
those declared since, none has a fixed slot other than the given ones. -/
structure Declares (pins : UInt16 → Prop) (before after : Array LocalInfo) : Prop where
  kept : ∀ (v : Nat) (l : LocalInfo), before[v]? = some l → ∃ slot, after[v]? = some { l with slot }
  added : ∀ (v : Nat) (l : LocalInfo), before.size ≤ v → after[v]? = some l →
    ∀ slot ∈ l.fixedSlot, pins slot

namespace Declares

variable {pins : UInt16 → Prop} {x y z : Array LocalInfo}

theorem refl (pins : UInt16 → Prop) (locals : Array LocalInfo) : Declares pins locals locals where
  kept _ l found := ⟨l.slot, found⟩
  added _ _ new found := absurd (Array.getElem?_eq_some_iff.mp found).1 (Nat.not_lt.mpr new)

/-- A local is one of the old ones, or the rule for new ones holds of it. -/
theorem origin (h : Declares pins x y) {v : Nat} {l : LocalInfo} (found : y[v]? = some l) :
    (∃ old slot, x[v]? = some old ∧ l = { old with slot }) ∨
      x.size ≤ v ∧ ∀ slot ∈ l.fixedSlot, pins slot := by
  rcases Nat.lt_or_ge v x.size with inside | new
  · obtain ⟨slot, stored⟩ := h.kept v x[v] (Array.getElem?_eq_getElem inside)
    rw [found] at stored
    cases stored
    exact .inl ⟨x[v], slot, Array.getElem?_eq_getElem inside, rfl⟩
  · exact .inr ⟨new, h.added v l new found⟩

theorem trans (first : Declares pins x y) (second : Declares pins y z) : Declares pins x z where
  kept v l found := by
    obtain ⟨slot, stored⟩ := first.kept v l found
    obtain ⟨slot', stored'⟩ := second.kept v _ stored
    exact ⟨slot', stored'⟩
  added v l new found := by
    rcases second.origin found with ⟨old, slot, stored, rfl⟩ | ⟨-, allowed⟩
    · exact first.added v old new stored
    · exact allowed

theorem push {l : LocalInfo} (allowed : ∀ slot ∈ l.fixedSlot, pins slot) :
    Declares pins x (x.push l) where
  kept v old found := by
    have inside := (Array.getElem?_eq_some_iff.mp found).1
    exact ⟨old.slot, by rw [Array.getElem?_push, if_neg (Nat.ne_of_lt inside)]; exact found⟩
  added v l' new found := by
    rw [Array.getElem?_push] at found
    split at found
    · cases found
      exact allowed
    · exact absurd (Array.getElem?_eq_some_iff.mp found).1 (Nat.not_lt.mpr new)

theorem reslotted (moved : Allocation.Reslotted x y) : Declares pins x y where
  kept v l found := by
    obtain ⟨slot, stored, -⟩ := moved.info v l found
    exact ⟨slot, stored⟩
  added v l new found := by
    have inside := (Array.getElem?_eq_some_iff.mp found).1
    rw [moved.size] at inside
    exact absurd inside (Nat.not_lt.mpr new)

end Declares

namespace Draft

variable {pins : UInt16 → Prop} {d d' : Draft}

/-- Of all edits only the declaration of a local is one to its locals. -/
theorem Edited.declares (h : Edited pins d d') : Declares pins d.locals d'.locals := by
  have same : d'.locals = d.locals → Declares pins d.locals d'.locals := by
    intro equal
    rw [equal]
    exact .refl pins d.locals
  cases h with
  | push i =>
      apply same
      unfold Draft.push
      split <;> rfl
  | createLabel => exact same rfl
  | placeLabel label =>
      apply same
      unfold Draft.placeLabel
      split <;> rfl
  | addHandler h =>
      apply same
      unfold Draft.addHandler
      split <;> rfl
  | markLine line => exact same rfl
  | createLocal name type allowed => exact .push allowed

theorem Edited.reachable (h : Edited pins d d') (reachable : d.Reachable) : d'.Reachable := by
  cases h with
  | push i => exact reachable.push i
  | createLabel => exact reachable.createLabel
  | placeLabel label => exact reachable.placeLabel label
  | addHandler h => exact reachable.addHandler h
  | markLine line => exact reachable.markLine line
  | createLocal name type allowed => exact reachable.createLocal name type _

theorem reachable_of_edits (h : Relation.ReflTransGen (Edited pins) d d')
    (reachable : d.Reachable) : d'.Reachable := by
  induction h with
  | refl => exact reachable
  | tail _ last ih => exact last.reachable ih

theorem declares_of_edits (h : Relation.ReflTransGen (Edited pins) d d') :
    Declares pins d.locals d'.locals := by
  induction h with
  | refl => exact .refl pins d.locals
  | tail _ last ih => exact ih.trans last.declares

open Layout.Pass in
theorem locals_widened (w : Widened d d') : d'.locals = d.locals := by
  induction w with
  | refl => rfl
  | tail _ last ih =>
      cases last with
      | jump member found form => exact ih
      | condition member found form opposite => rw [locals_widenCondition, ih]

end Draft

/-- The slot is one of those that are fixed for the local. -/
def LocalInfo.Pins (l : LocalInfo) (j : Nat) : Prop :=
  ∃ slot, l.fixedSlot = some slot ∧ slot.toNat ≤ j ∧ j < slot.toNat + l.kind.width

theorem LocalKind.width_ofType (t : FieldType) : (LocalKind.ofType t).width = t.width := by
  cases t with
  | base b => cases b <;> rfl
  | ref r => rfl

namespace Builder

/-- Parameters take the slots from the first one on, each behind those before it. -/
theorem pins_parameterLocals {types : List FieldType} {slot : UInt16}
    (fits : slot.toNat + (types.map (·.width)).sum ≤ 65535) :
    (∀ l ∈ parameterLocals slot types, ∀ j, l.Pins j → slot.toNat ≤ j) ∧
      (parameterLocals slot types).Pairwise fun l m => ∀ j, l.Pins j → ¬ m.Pins j := by
  induction types generalizing slot with
  | nil => exact ⟨List.forall_mem_nil _, .nil⟩
  | cons t ts ih =>
      rw [List.map_cons, List.sum_cons, ← Nat.add_assoc] at fits
      have first : ∀ j, (⟨none, t, some slot, some slot⟩ : LocalInfo).Pins j →
          slot.toNat ≤ j ∧ j < slot.toNat + t.width := by
        rintro j ⟨s, same, low, high⟩
        cases same
        rw [LocalInfo.kind, LocalKind.width_ofType] at high
        exact ⟨low, high⟩
      -- The next parameter has a slot, or there is none, so its number is not cut off.
      have next : (slot + UInt16.ofNat t.width).toNat = slot.toNat + t.width :=
        toNat_add_width (Nat.le_of_add_right_le fits)
      rw [← next] at fits
      obtain ⟨low, apart⟩ := ih fits
      rw [next] at low
      refine ⟨List.forall_mem_cons.mpr ⟨fun j here => (first j here).1, ?_⟩,
        List.pairwise_cons.mpr ⟨?_, apart⟩⟩
      · intro l member j here
        exact Nat.le_of_add_right_le (low l member j here)
      · intro l member j here there
        exact Nat.not_lt.mpr (low l member j there) (first j here).2

variable {id : Nat} {owner : BinaryName} {descriptor : MethodDescriptor} {isStatic : Bool}

theorem pins_argumentLocals_apart (narrow : descriptor.parameterSlots (!isStatic) ≤ 65535) :
    (argumentLocals owner descriptor isStatic).Pairwise fun l m => ∀ j, l.Pins j → ¬ m.Pins j := by
  rw [← MethodDescriptor.sum_argumentWidths] at narrow
  cases isStatic with
  | true =>
      refine (pins_parameterLocals ?_).2
      rw [UInt16.toNat_zero, Nat.zero_add]
      exact narrow
  | false =>
      obtain ⟨low, apart⟩ := @pins_parameterLocals descriptor.parameters 1 narrow
      refine List.pairwise_cons.mpr ⟨?_, apart⟩
      rintro l member j ⟨slot, same, -, high⟩ there
      cases same
      exact Nat.not_lt.mpr (low l member j there) high

/-- The arguments of a new builder have no slot in common. -/
theorem pins_create {start : Builder} (created : create id owner descriptor isStatic = .ok start)
    {v w : Nat} {lv lw : LocalInfo} (distinct : v ≠ w) (foundV : start.draft.locals[v]? = some lv)
    (foundW : start.draft.locals[w]? = some lw) {j : Nat} (here : lv.Pins j) : ¬ lw.Pins j := by
  obtain ⟨narrow, rfl⟩ := create_eq_ok.mp created
  have apart := @pins_argumentLocals_apart owner descriptor isStatic narrow
  rw [getElem?_locals_initial] at foundV foundW
  obtain ⟨insideV, rfl⟩ := List.getElem?_eq_some_iff.mp foundV
  obtain ⟨insideW, rfl⟩ := List.getElem?_eq_some_iff.mp foundW
  rcases Nat.lt_or_gt_of_ne distinct with before | after
  · exact List.pairwise_iff_getElem.mp apart v w insideV insideW before j here
  · exact fun there => List.pairwise_iff_getElem.mp apart w v insideW insideV after j there here

end Builder

namespace Body

variable {b : Body} {table : Pool.IndexTable} {arguments : Option (List Local)}
  {exit : Option Label} {ws : Workspace} {locals : Array LocalInfo}

/-- Where a local with a fixed slot comes from, if only the method around the copy has fixed any:
it is an argument of the method, or the copy made it for a return address. -/
theorem origin_of_fixed {first : Array LocalInfo}
    (host : Declares (fun _ => False) first ws.builder.draft.locals)
    (later : Declares (fun _ => False)
      (b.copyInto table arguments exit ws).2.builder.draft.locals locals)
    {v : Nat} {l : LocalInfo} {slot : UInt16} (found : locals[v]? = some l)
    (fixed : l.fixedSlot = some slot) :
    (∃ argument, first[v]? = some argument ∧ ∀ j, l.Pins j → argument.Pins j) ∨
      (ws.builder.draft.locals.size ≤ v ∧
        v < (b.copyInto table arguments exit ws).2.builder.draft.locals.size ∧
        slot ∈ (Listing.decode b.code).returnSlots) := by
  have copied := Draft.declares_of_edits (b.edits_copyInto table arguments exit ws)
  rcases later.origin found with ⟨old, slot', stored, rfl⟩ | ⟨-, none⟩
  · rcases copied.origin stored with ⟨older, slot', before, rfl⟩ | ⟨new, returns⟩
    · rcases host.origin before with ⟨argument, slot', given, rfl⟩ | ⟨-, none⟩
      · exact .inl ⟨argument, given, fun _ here => here⟩
      · exact (none slot fixed).elim
    · exact .inr ⟨new, (Array.getElem?_eq_some_iff.mp stored).1, returns slot fixed⟩
  · exact (none slot fixed).elim

/-- Two locals that are live at one position share a slot only if copying the body has made one
of them for a return address: it is pinned to the slot that the body itself uses for that. All
other locals, those of the copy and those of the method around it, are apart. -/
theorem locals_apart_of_copyInto {id : Nat} {owner : BinaryName} {descriptor : MethodDescriptor}
    {isStatic : Bool} {start : Builder} {d d' : Draft} {pool : Pool} {c : Code}
    (created : Builder.create id owner descriptor isStatic = .ok start)
    (host : Declares (fun _ => False) start.draft.locals ws.builder.draft.locals)
    (later : Declares (fun _ => False)
      (b.copyInto table arguments exit ws).2.builder.draft.locals d.locals)
    (reachable : d.Reachable) (resolved : d.resolve pool = (.ok c, d')) :
    ∃ f, d.flow = .ok f ∧
      (∀ v l i, d'.locals[v]? = some l →
        ((Liveness.ofFlow f d.locals.size).live v).contains i = true → l.slot ≠ none) ∧
      ∀ v w lv lw i j, v ≠ w → d'.locals[v]? = some lv → d'.locals[w]? = some lw →
        ((Liveness.ofFlow f d.locals.size).live v).contains i = true →
        ((Liveness.ofFlow f d.locals.size).live w).contains i = true →
        lv.Occupies j → lw.Occupies j →
        ∃ u l slot, (u = v ∨ u = w) ∧ d'.locals[u]? = some l ∧
          ws.builder.draft.locals.size ≤ u ∧
          u < (b.copyInto table arguments exit ws).2.builder.draft.locals.size ∧
          l.fixedSlot = some slot ∧ slot ∈ (Listing.decode b.code).returnSlots := by
  have valid := reachable.valid
  have valid' : d'.Valid := by
    have after := valid.resolve pool
    rw [resolved] at after
    exact after
  obtain ⟨f, frame, depth, slotted, l, flow, allocated, -, layout, -⟩ :=
    Draft.resolve_eq_ok.mp resolved
  obtain ⟨-, moved⟩ := Draft.allocateSlots_reslotted allocated
  have marked := (valid.allocateSlots allocated).markDeadStores (.ofFlow f d.locals.size)
  have locals : d'.locals = slotted.locals := by
    rw [Draft.locals_widened (Layout.layout_widens marked layout), Draft.markDeadStores_eq]
  have later' := later.trans (.reslotted moved)
  rw [← locals] at later'
  obtain ⟨served, apart⟩ := Draft.allocateSlots_packed
    (fun l member slot fixed => valid.fixed l member slot fixed)
    (Liveness.ranged_ofFlow f d.locals.size) allocated
  rw [← locals] at served apart
  refine ⟨f, flow, served, ?_⟩
  intro v w lv lw i j distinct foundV foundW liveV liveW hereV hereW
  have together := fun free => apart v w lv lw j i distinct foundV foundW free hereV hereW
    ⟨liveV, liveW⟩
  have pins : ∀ {u : Nat} {l : LocalInfo} {slot : UInt16}, d'.locals[u]? = some l →
      l.fixedSlot = some slot → l.Occupies j → l.Pins j := by
    rintro u l slot found fixed ⟨slot', given, low, high⟩
    rw [valid'.fixed l (Array.mem_of_getElem? found) slot fixed] at given
    cases given
    exact ⟨slot, fixed, low, high⟩
  cases fixedV : lv.fixedSlot with
  | none => exact (together (.inl fixedV)).elim
  | some slotV =>
      cases fixedW : lw.fixedSlot with
      | none => exact (together (.inr fixedW)).elim
      | some slotW =>
          rcases origin_of_fixed host later' foundV fixedV with
            ⟨argumentV, firstV, pinsV⟩ | ⟨new, inside, returns⟩
          · rcases origin_of_fixed host later' foundW fixedW with
              ⟨argumentW, firstW, pinsW⟩ | ⟨new, inside, returns⟩
            · exact (Builder.pins_create created distinct firstV firstW
                (pinsV j (pins foundV fixedV hereV)) (pinsW j (pins foundW fixedW hereW))).elim
            · exact ⟨w, lw, slotW, .inr rfl, foundW, new, inside, fixedW, returns⟩
          · exact ⟨v, lv, slotV, .inl rfl, foundV, new, inside, fixedV, returns⟩

/-- A method without parameters that calls a subroutine and keeps the return address in slot
zero. -/
def returning : Body where
  className := "java/lang/Object"
  descriptor := ⟨[], none⟩
  isStatic := true
  code := [168, 0, 4, 177, 75, 169, 0]
  handlers := []
  lines := []

theorem listing_returning : Listing.decode returning.code =
    ⟨[⟨0, 3, .branch 168 4⟩, ⟨3, 4, .simple 177⟩, ⟨4, 5, .access .reference 0 true⟩,
      ⟨5, 7, .ret 0⟩], []⟩ := by
  decide +kernel

/-- A method that takes a number, and a label in it. -/
def around : Workspace :=
  (Emit.run .empty [.createLabel] ⟨.empty, Builder.initial 0 .object ⟨[.int], some .int⟩ true⟩).2

/-- The script of the body, with returns to the label. -/
def returningOps : List (Op (Handle Label) (Handle Local)) :=
  [.createLabel, .jsr (.made 0), .branch (.given ⟨0, 0⟩), .placeLabel (.made 0),
    .createLocalAt none (.object .object) 0, .storeLocal (.made 0), .ret (.made 0)]

theorem disassemble_returning (k : Constants) (typeOf : Local → Except Fault FieldType) :
    returning.disassemble k typeOf [] (some (⟨0, 0⟩ : Label)) = ⟨returningOps, none, [], []⟩ := by
  have types : returning.argumentTypes = .ok [] := rfl
  simp only [disassemble, types, listing_returning, SlotMap.bind]
  cbv

theorem copyInto_returning : returning.copyInto #[] (some []) (some ⟨0, 0⟩) around =
    (⟨none, [], []⟩, (Emit.run .empty returningOps around).2) := by
  unfold copyInto
  simp only [Option.getD_some, disassemble_returning]
  rfl

/-- What the method does with its number after the copy. -/
def finishing : List (Op (Handle Label) (Handle Local)) :=
  [.placeLabel (.given ⟨0, 0⟩), .loadLocal (.given ⟨0, 0⟩), .returnValue (some .int)]

/-- The method around the copy, complete. -/
def inlined : Draft :=
  (Emit.run .empty finishing
    (returning.copyInto #[] (some []) (some ⟨0, 0⟩) around).2).2.builder.draft

theorem inlined_eq : inlined =
    (Emit.run .empty finishing (Emit.run .empty returningOps around).2).2.builder.draft := by
  rw [inlined, copyInto_returning]

theorem edits_around : Relation.ReflTransGen (Draft.Edited fun _ => False)
    (Builder.initial 0 .object ⟨[.int], some .int⟩ true).draft around.builder.draft :=
  Emit.drafts_of_worked (Emit.edits_unpinned .empty [.createLabel] (by decide)
    ⟨.empty, Builder.initial 0 .object ⟨[.int], some .int⟩ true⟩)

theorem edits_inlined : Relation.ReflTransGen (Draft.Edited fun _ => False)
    (returning.copyInto #[] (some []) (some ⟨0, 0⟩) around).2.builder.draft inlined :=
  Emit.drafts_of_worked (Emit.edits_unpinned .empty finishing (by decide) _)

theorem reachable_inlined : inlined.Reachable := by
  have start : (Builder.initial 0 .object ⟨[.int], some .int⟩ true).draft.Reachable :=
    ((Draft.Reachable.empty 0).createLocal none .int (some 0)).reserveSlots 1
  exact Draft.reachable_of_edits edits_inlined (Draft.reachable_of_edits
    (returning.edits_copyInto #[] (some []) (some ⟨0, 0⟩) around)
    (Draft.reachable_of_edits edits_around start))

theorem resolve_inlined : ∃ d', inlined.resolve .empty =
    (.ok ⟨1, 1, [168, 0, 6, 167, 0, 6, 75, 169, 0, 26, 172], [], [], []⟩, d') ∧
      d'.locals.toList.map (·.slot) = [some 0, some 0] := by
  refine Draft.exists_resolve_of_within (n := 30) (fun d' => d'.locals.toList.map (·.slot)) ?_
  rw [inlined_eq]
  decide +kernel

theorem live_inlined {f : Flow} (flow : inlined.flow = .ok f) :
    ((Liveness.ofFlow f inlined.locals.size).live 0).contains 4 = true ∧
      ((Liveness.ofFlow f inlined.locals.size).live 1).contains 4 = true := by
  have computed : (inlined.flow.toOption.map fun f =>
      (((Liveness.ofFlow f inlined.locals.size).live 0).contains 4,
        ((Liveness.ofFlow f inlined.locals.size).live 1).contains 4)) = some (true, true) := by
    rw [inlined_eq]
    decide +kernel
  rw [flow] at computed
  simpa [Except.toOption] using computed

/-- The number of the method and the return address of the copy are in one slot although both are
live where the subroutine returns. -/
theorem slots_shared_inlined :
    (returning.copyInto #[] (some []) (some ⟨0, 0⟩) around).1.fault = none ∧
      ∃ c d' f lv lw, inlined.resolve .empty = (.ok c, d') ∧ inlined.flow = .ok f ∧
        d'.locals[0]? = some lv ∧ d'.locals[1]? = some lw ∧
        ((Liveness.ofFlow f inlined.locals.size).live 0).contains 4 = true ∧
        ((Liveness.ofFlow f inlined.locals.size).live 1).contains 4 = true ∧
        lv.Occupies 0 ∧ lw.Occupies 0 := by
  obtain ⟨d', resolved, slots⟩ := resolve_inlined
  obtain ⟨f, frame, depth, slotted, l, flow, -⟩ := Draft.resolve_eq_ok.mp resolved
  obtain ⟨liveV, liveW⟩ := live_inlined flow
  have occupies : ∀ v < 2, ∃ l, d'.locals[v]? = some l ∧ l.Occupies 0 := by
    intro v bound
    have slot : (d'.locals[v]?).map (·.slot) = some (some 0) := by
      rw [← Array.getElem?_toList, ← List.getElem?_map, slots]
      interval_cases v <;> rfl
    obtain ⟨l, found, given⟩ := Option.map_eq_some_iff.mp slot
    exact ⟨l, found, 0, given, Nat.le_refl _, by simpa using Draft.width_pos l.kind⟩
  obtain ⟨lv, foundV, hereV⟩ := occupies 0 (by decide)
  obtain ⟨lw, foundW, hereW⟩ := occupies 1 (by decide)
  refine ⟨?_, _, d', f, lv, lw, resolved, flow, foundV, foundW, liveV, liveW, hereV, hereW⟩
  rw [copyInto_returning]

theorem locals_apart_of_copyInto_inlined :
    ∃ start, Builder.create 0 .object ⟨[.int], some .int⟩ true = .ok start ∧
      Declares (fun _ => False) start.draft.locals around.builder.draft.locals ∧
      Declares (fun _ => False)
        (returning.copyInto #[] (some []) (some ⟨0, 0⟩) around).2.builder.draft.locals
        inlined.locals ∧
      inlined.Reachable ∧ ∃ c d' f, inlined.resolve .empty = (.ok c, d') ∧
        inlined.flow = .ok f ∧ ∀ v w lv lw i j, v ≠ w → d'.locals[v]? = some lv →
          d'.locals[w]? = some lw →
          ((Liveness.ofFlow f inlined.locals.size).live v).contains i = true →
          ((Liveness.ofFlow f inlined.locals.size).live w).contains i = true →
          lv.Occupies j → lw.Occupies j → ∃ u l, (u = v ∨ u = w) ∧ d'.locals[u]? = some l ∧
            around.builder.draft.locals.size ≤ u ∧ l.fixedSlot = some 0 := by
  have host := Draft.declares_of_edits edits_around
  have later := Draft.declares_of_edits edits_inlined
  have created : Builder.create 0 .object ⟨[.int], some .int⟩ true = .ok _ :=
    Builder.create_eq_ok.mpr ⟨by decide, rfl⟩
  obtain ⟨d', resolved, -⟩ := resolve_inlined
  obtain ⟨f, flow, -, apart⟩ :=
    locals_apart_of_copyInto created host later reachable_inlined resolved
  refine ⟨_, created, host, later, reachable_inlined, _, d', f, resolved, flow, ?_⟩
  intro v w lv lw i j distinct foundV foundW liveV liveW hereV hereW
  obtain ⟨u, l, slot, which, found, new, -, fixed, returns⟩ :=
    apart v w lv lw i j distinct foundV foundW liveV liveW hereV hereW
  rw [listing_returning] at returns
  cases List.mem_singleton.mp returns
  exact ⟨u, l, which, found, new, fixed⟩

end Body

end JvmAssembly
