import Mathlib
import JvmAssembly.Proofs.Builder.Inlining
import JvmAssembly.Proofs.Builder.Retracing
import JvmAssembly.Proofs.Disassembly.Counterpart

/-!
What retracing a layout leaves. There is a line for every instruction of the draft that was laid
out, and there are labels only for the targets of jumps. The new draft has the bytes of the old one,
so it is its counterpart; if no slot was left to allocation, it also resolves to the same code.
-/
namespace JvmAssembly

section Addresses

variable {d : Draft} {pool : Pool} {offsets : Offsets} {offset : Nat} {nodes : List NodeId}
  {code : Bytes} {n : NodeId}

theorem Draft.written_cons_label (label : d.instructionAt n = .label) (nodes : List NodeId) :
    d.written (n :: nodes) = d.written nodes :=
  List.filter_cons_of_neg (by rw [label]; decide)

theorem Draft.written_cons_solid (solid : (d.instructionAt n).isLabel = false)
    (nodes : List NodeId) : d.written (n :: nodes) = n :: d.written nodes :=
  List.filter_cons_of_pos (by rw [solid]; rfl)

theorem Draft.mem_written :
    n ∈ d.written nodes ↔ n ∈ nodes ∧ (d.instructionAt n).isLabel = false := by
  rw [written, List.mem_filter, Bool.not_eq_true']

/-- Instructions stand at increasing offsets before the end of the code. -/
theorem Written.offsets_lt (h : Written d pool offsets offset nodes code) :
    ((d.written nodes).map fun n => (offsets.of? n).getD 0).Pairwise (· < ·) ∧
      ∀ n ∈ d.written nodes, ∃ a, offsets.of? n = some a ∧ offset ≤ a ∧
        a < offset + code.length := by
  induction h with
  | nil => exact ⟨.nil, List.forall_mem_nil _⟩
  | @cons offset node rest bytes more here encoded later ih =>
      obtain ⟨increasing, between⟩ := ih
      rw [List.length_append]
      by_cases label : d.instructionAt node = .label
      · rw [label] at encoded
        cases encoded
        rw [Draft.written_cons_label label]
        refine ⟨increasing, fun n member => ?_⟩
        obtain ⟨a, known, low, high⟩ := between n member
        exact ⟨a, known, low, by rwa [List.length_nil, Nat.zero_add]⟩
      · have solid := Instruction.isLabel_eq_false _ label
        have some := List.length_pos_iff.mpr (Draft.encode_ne_nil solid encoded)
        rw [Draft.written_cons_solid solid, List.map_cons, List.pairwise_cons,
          List.forall_mem_cons, List.forall_mem_map, here]
        refine ⟨⟨fun n member => ?_, increasing⟩, ⟨offset, rfl, Nat.le_refl _, by omega⟩,
          fun n member => ?_⟩
        · obtain ⟨a, known, low, -⟩ := between n member
          rw [known, Option.getD_some, Option.getD_some]
          omega
        · obtain ⟨a, known, low, high⟩ := between n member
          exact ⟨a, known, by omega, by omega⟩

/-- Code starts with an instruction, or ends at once. -/
theorem Written.start_cases (h : Written d pool offsets offset nodes code) :
    offset = offset + code.length ∨ ∃ m ∈ d.written nodes, offsets.of? m = some offset := by
  induction h with
  | nil => exact .inl rfl
  | @cons offset node rest bytes more here encoded later ih =>
      by_cases label : d.instructionAt node = .label
      · rw [label] at encoded
        cases encoded
        rw [Draft.written_cons_label label]
        exact ih
      · have solid := Instruction.isLabel_eq_false _ label
        exact .inr ⟨node, Draft.mem_written.mpr ⟨List.mem_cons_self, solid⟩, here⟩

/-- Every node is where an instruction is, or at the end of the code. -/
theorem Written.address_cases (h : Written d pool offsets offset nodes code)
    (member : n ∈ nodes) : ∃ a, offsets.of? n = some a ∧
      (a = offset + code.length ∨ ∃ m ∈ d.written nodes, offsets.of? m = some a) := by
  induction h with
  | nil => cases member
  | @cons offset node rest bytes more here encoded later ih =>
      rcases List.mem_cons.mp member with rfl | behind
      · exact ⟨offset, here, (Written.cons here encoded later).start_cases⟩
      · obtain ⟨a, known, last | ⟨m, among, there⟩⟩ := ih behind
        · refine ⟨a, known, .inl ?_⟩
          rw [last, List.length_append, Nat.add_assoc]
        · obtain ⟨inside, solid⟩ := Draft.mem_written.mp among
          exact ⟨a, known, .inr ⟨m,
            Draft.mem_written.mpr ⟨List.mem_cons_of_mem _ inside, solid⟩, there⟩⟩

/-- The targets that are decoded are the offsets of the labels. -/
theorem Corresponds.mem_targets {x : Instruction} {i : Decoded} {locals : Array LocalInfo}
    (same : Corresponds d pool offsets x i) (writable : x.Writable locals) {a : Nat} :
    a ∈ i.targets ↔ ∃ target ∈ x.targets, offsets.of? target.node = some a := by
  cases same with
  | @branch op target there known =>
      change a ∈ [there] ↔ ∃ t ∈ [target], offsets.of? t.node = some a
      simp only [List.mem_singleton, exists_eq_left, known, Option.some.injEq]
      exact eq_comm
  | @switch default cases table there rows known keys rest =>
      change a ∈ there :: rows.map (·.2) ↔ _
      constructor
      · intro member
        rcases List.mem_cons.mp member with rfl | among
        · exact ⟨default, List.mem_append_right _ (List.mem_singleton.mpr rfl), known⟩
        · obtain ⟨row, inside, rfl⟩ := List.mem_map.mp among
          exact ⟨_, lookup_mem_targets row.1, rest row inside⟩
      · rintro ⟨target, member, found⟩
        rcases List.mem_append.mp member with inside | last
        · obtain ⟨c, among, rfl⟩ := List.mem_map.mp inside
          have key := mem_switchKeys writable among table
          rw [← keys] at key
          obtain ⟨row, stored, same⟩ := List.mem_map.mp key
          have there := rest row stored
          rw [same, Encoding.lookup_of_mem writable among, Option.getD_some, found] at there
          cases there
          exact List.mem_cons_of_mem _ (List.mem_map_of_mem stored)
        · cases List.mem_singleton.mp last
          cases known.symm.trans found
          exact List.mem_cons_self
  | _ =>
      refine ⟨nofun, ?_⟩
      rintro ⟨target, none, -⟩
      cases none

/-- The code of a layout reads back node by node. -/
theorem Layout.Settled.decode {l : Layout} (settled : Layout.Settled pool d l)
    (writable : d.Writable) : (Listing.decode l.code).reports = [] ∧
      List.Forall₂ (ListedAs d pool l.offsets) (d.written d.order.toList)
        (Listing.decode l.code).instructions := by
  refine Listing.decode_written settled.written settled.short (fun n _ => writable n) ?_
  intro n member label target
  obtain ⟨before, bytes, after, split, there, -⟩ :=
    settled.written.mem (settled.targets member target)
  have short := settled.short
  rw [split, List.length_append, List.length_append] at short
  exact ⟨0 + before.length, by omega, there⟩

end Addresses

namespace Emit

open Writing

variable {base : Workspace} {labels : Std.HashMap Nat Nat} {d d' : Draft} {pool : Pool}
  {offsets offsets' : Offsets}

/-- Lines for nodes that were laid out. -/
def linesOf (base : Workspace) (labels : Std.HashMap Nat Nat) (d : Draft) (offsets : Offsets)
    (nodes : List NodeId) : List Line :=
  (d.written nodes).map fun n => ((offsets.of? n).getD 0,
    (d.instructionAt n).renewed (relabelled base labels offsets) (revalued base))

theorem mem_retraced {lines : List Line} {k m : Nat} :
    m ∈ retraced labels k lines ↔
      (∃ line ∈ lines, labels[line.1]? = some m) ∨ k ≤ m ∧ m < k + lines.length := by
  induction lines generalizing k with
  | nil =>
      rw [retraced, List.length_nil]
      refine ⟨fun member => absurd member List.not_mem_nil, ?_⟩
      rintro (⟨_, none, -⟩ | ⟨low, high⟩)
      · cases none
      · omega
  | cons line lines ih =>
      rw [retraced, List.mem_append, List.mem_cons, ih, Option.mem_toList,
        List.exists_mem_cons_iff, List.length_cons]
      constructor
      · rintro (here | rfl | there | ⟨low, high⟩)
        · exact .inl (.inl here)
        · exact .inr ⟨Nat.le_refl _, by omega⟩
        · exact .inl (.inr there)
        · exact .inr ⟨by omega, by omega⟩
      · rintro ((here | there) | ⟨low, high⟩)
        · exact .inl here
        · exact .inr (.inr (.inl there))
        · by_cases first : m = k
          · exact .inr (.inl first)
          · exact .inr (.inr (.inr ⟨by omega, by omega⟩))

/-- A label takes no bytes where it is placed. -/
theorem written_placed {offset : Nat} {nodes : List NodeId} {code : Bytes}
    (known : ∀ a m : Nat, labels[a]? = some m →
      offsets'.of? m = some a ∧ d'.instructionAt m = .label)
    (later : Written d' pool offsets' offset nodes code) :
    Written d' pool offsets' offset ((labels[offset]?).toList ++ nodes) code := by
  cases found : labels[offset]? with
  | none => exact later
  | some m =>
      obtain ⟨here, label⟩ := known offset m found
      exact @Written.cons d' pool offsets' offset m nodes [] code here (by rw [label]; rfl) later

/-- Line by line, the nodes of the script have the bytes of those that were laid out. -/
theorem written_retraced {offset k : Nat} {nodes : List NodeId} {code : Bytes}
    (written : Written d pool offsets offset nodes code)
    (writable : ∀ n ∈ nodes, (d.instructionAt n).Writable d.locals)
    (targets : ∀ n ∈ nodes, ∀ target ∈ (d.instructionAt n).targets,
      offsets'.of? (relabelled base labels offsets target).node = offsets.of? target.node)
    (slots : ∀ v slot, d.slotOf v = .ok slot → d'.slotOf (revalued base v) = .ok slot)
    (known : ∀ a m : Nat, labels[a]? = some m →
      offsets'.of? m = some a ∧ d'.instructionAt m = .label)
    (lines : ∀ (i : Nat) (line : Line), (linesOf base labels d offsets nodes)[i]? = some line →
      offsets'.of? (k + i) = some line.1 ∧ d'.instructionAt (k + i) = line.2) :
    Written d' pool offsets' offset (retraced labels k (linesOf base labels d offsets nodes) ++
      (labels[offset + code.length]?).toList) code := by
  induction written generalizing k with
  | nil offset =>
      have last : Written d' pool offsets' offset _ [] := written_placed known (.nil offset)
      rwa [List.append_nil] at last
  | @cons offset node rest bytes more here encoded later ih =>
      rw [List.forall_mem_cons] at writable targets
      rw [List.length_append, ← Nat.add_assoc]
      by_cases label : d.instructionAt node = .label
      · rw [label] at encoded
        cases encoded
        rw [linesOf, Draft.written_cons_label label] at lines ⊢
        exact ih writable.2 targets.2 lines
      · have solid := Instruction.isLabel_eq_false _ label
        have split : linesOf base labels d offsets (node :: rest) = (offset,
            (d.instructionAt node).renewed (relabelled base labels offsets) (revalued base)) ::
              linesOf base labels d offsets rest := by
          rw [linesOf, Draft.written_cons_solid solid, List.map_cons, here]
          rfl
        rw [split] at lines ⊢
        obtain ⟨there, instruction⟩ := lines 0 _ rfl
        rw [Nat.add_zero] at there instruction
        have encoded' : d'.encode pool offsets' offset (d'.instructionAt k) =
            .ok (.bytes bytes true) := by
          rw [instruction]
          exact encode_renewed writable.1 encoded targets.1 slots
        have behind := @ih (k + 1) writable.2 targets.2 fun i line found => by
          rw [Nat.add_assoc, Nat.add_comm 1]
          exact lines (i + 1) line found
        rw [retraced, List.append_assoc]
        exact written_placed known (.cons there encoded' behind)

/-- There are labels for the targets of jumps and for nothing else. -/
def CoversTargets (labels : Std.HashMap Nat Nat) (d : Draft) (offsets : Offsets) : Prop :=
  ∀ a : Nat, a ∈ labels ↔ ∃ n ∈ d.order.toList, ∃ target ∈ (d.instructionAt n).targets,
    offsets.of? target.node = some a

section Targets

variable {l : Layout} (settled : Layout.Settled pool d l)
  (covers : CoversTargets labels d l.offsets)

include settled covers

/-- The target of a jump has a label of the script at its offset. -/
theorem exists_relabelled (base : Workspace) {n : NodeId} (member : n ∈ d.order.toList)
    {target : Label} (among : target ∈ (d.instructionAt n).targets) :
    ∃ a m : Nat, l.offsets.of? target.node = some a ∧ labels[a]? = some m ∧
      relabelled base labels l.offsets target = ⟨base.builder.draft.id, m⟩ := by
  obtain ⟨a, there⟩ := Option.isSome_iff_exists.mp (settled.written.targets_known member among)
  have known := (covers a).mpr ⟨n, member, target, among, there⟩
  obtain ⟨m, found⟩ := Option.isSome_iff_exists.mp
    (Std.HashMap.mem_iff_isSome_getElem?.mp known)
  refine ⟨a, m, there, found, ?_⟩
  rw [relabelled_eq there, labelFor, Std.HashMap.getD_eq_getD_getElem?, found, Option.getD_some]

theorem refers_linesOf (locals : base.builder.draft.locals = d.locals) {line : Line}
    (member : line ∈ linesOf base labels d l.offsets d.order.toList) :
    Refers base labels line.2 := by
  obtain ⟨n, among, rfl⟩ := List.mem_map.mp member
  have owns := settled.valid.owns n
  refine ⟨fun target jumps => ?_, fun v read => ?_, fun v stored => ?_⟩
  · obtain ⟨old, old_mem, rfl⟩ := Instruction.target_of_renewed jumps
    obtain ⟨a, m, -, found, same⟩ :=
      exists_relabelled settled covers base (Draft.mem_written.mp among).1 old_mem
    rw [same]
    exact ⟨rfl, a, found⟩
  · rw [Instruction.uses_renewed, Option.map_eq_some_iff] at read
    obtain ⟨w, used, rfl⟩ := read
    exact ⟨rfl, locals ▸ (owns.uses w used).2⟩
  · obtain ⟨w, defined, rfl⟩ := Instruction.defines_renewed stored
    exact ⟨rfl, locals ▸ (owns.defines w defined).2⟩

/-- A label stands before an instruction or at the end of the code. -/
theorem address_of_label {a : Nat} (known : a ∈ labels) :
    a = l.code.length ∨ ∃ n ∈ d.written d.order.toList, l.offsets.of? n = some a := by
  obtain ⟨n, member, target, among, there⟩ := (covers a).mp known
  obtain ⟨a', there', place⟩ := settled.written.address_cases (settled.targets member among)
  cases there.symm.trans there'
  rwa [Nat.zero_add] at place

end Targets

/-- The draft that a script leaves which retraces a layout. -/
structure Reconstructed (pool : Pool) (d : Draft) (l : Layout) (base : Workspace)
    (s : Script Label Local) (d' : Draft) : Prop where
  settled : Layout.Settled pool d l
  writable (n : NodeId) : (d.instructionAt n).Writable d.locals
  labelled : Labelled s
  covers : CoversTargets s.labels d l.offsets
  id : d'.id = base.builder.draft.id
  valid : d'.Valid
  locals : d'.locals = d.locals
  nodes : (d'.nodes.map (·.instruction)).toList = List.replicate s.addresses.size .label ++
    (linesOf base s.labels d l.offsets d.order.toList).map (·.2)
  order : d'.order.toList =
    retraced s.labels s.addresses.size (linesOf base s.labels d l.offsets d.order.toList) ++
      (s.labels[l.code.length]?).toList

/-- The layout of what a script leaves: labels are at their addresses, and so are lines. -/
def relaid (base : Workspace) (s : Script Label Local) (d : Draft) (l : Layout) : Layout :=
  ⟨l.code, s.addresses.map some ++
    ((linesOf base s.labels d l.offsets d.order.toList).map fun line => some line.1).toArray⟩

namespace Reconstructed

variable {l : Layout} {s : Script Label Local} (r : Reconstructed pool d l base s d')

include r

theorem size_nodes : d'.nodes.size = (relaid base s d l).offsets.size := by
  have both := congrArg List.length r.nodes
  simpa [relaid] using both

/-- The nodes of labels. -/
theorem label_known {a m : Nat} (found : s.labels[a]? = some m) :
    (relaid base s d l).offsets.of? m = some a ∧ d'.instructionAt m = .label := by
  rw [r.labelled.labels] at found
  have inside := (Array.getElem?_eq_some_iff.mp found).1
  constructor
  · rw [relaid, Offsets.of?, Array.getElem?_append_left (by rwa [Array.size_map]),
      Array.getElem?_map, found]
    rfl
  · have stored : (d'.nodes.map (·.instruction)).toList[m]? = some .label := by
      rw [r.nodes, List.getElem?_append_left (by rwa [List.length_replicate]),
        List.getElem?_replicate, if_pos inside]
    rw [Array.getElem?_toList, Array.getElem?_map, Option.map_eq_some_iff] at stored
    obtain ⟨node, here, same⟩ := stored
    rw [Draft.instructionAt_of_getElem? here, same]

/-- The nodes of lines. -/
theorem line_known {i : Nat} {line : Line}
    (found : (linesOf base s.labels d l.offsets d.order.toList)[i]? = some line) :
    (relaid base s d l).offsets.of? (s.addresses.size + i) = some line.1 ∧
      d'.instructionAt (s.addresses.size + i) = line.2 := by
  constructor
  · rw [relaid, Offsets.of?, Array.getElem?_append_right (by simp), Array.size_map,
      Nat.add_sub_cancel_left, List.getElem?_toArray, List.getElem?_map, found]
    rfl
  · have stored : (d'.nodes.map (·.instruction)).toList[s.addresses.size + i]? = some line.2 := by
      rw [r.nodes, List.getElem?_append_right (by simp), List.length_replicate,
        Nat.add_sub_cancel_left, List.getElem?_map, found]
      rfl
    rw [Array.getElem?_toList, Array.getElem?_map, Option.map_eq_some_iff] at stored
    obtain ⟨node, here, same⟩ := stored
    rw [Draft.instructionAt_of_getElem? here, same]

/-- Every line is one of an instruction that was laid out. -/
theorem line_origin {i : Nat} {line : Line}
    (found : (linesOf base s.labels d l.offsets d.order.toList)[i]? = some line) :
    ∃ n ∈ d.order.toList, l.offsets.of? n = some line.1 ∧
      line.2 = (d.instructionAt n).renewed (relabelled base s.labels l.offsets)
        (revalued base) := by
  rw [linesOf, List.getElem?_map, Option.map_eq_some_iff] at found
  obtain ⟨n, here, rfl⟩ := found
  have among := List.mem_of_getElem? here
  obtain ⟨a, known, -⟩ := r.settled.written.offsets_lt.2 n among
  refine ⟨n, (Draft.mem_written.mp among).1, ?_, rfl⟩
  rw [known, Option.getD_some]

/-- Every instruction that was laid out has its line. -/
theorem exists_line {n : NodeId} (member : n ∈ d.order.toList)
    (solid : (d.instructionAt n).isLabel = false) :
    ∃ (i : Nat) (line : Line),
      (linesOf base s.labels d l.offsets d.order.toList)[i]? = some line ∧
      l.offsets.of? n = some line.1 ∧
      line.2 = (d.instructionAt n).renewed (relabelled base s.labels l.offsets)
        (revalued base) := by
  have among := Draft.mem_written.mpr ⟨member, solid⟩
  obtain ⟨a, known, -⟩ := r.settled.written.offsets_lt.2 n among
  obtain ⟨i, here⟩ := List.mem_iff_getElem?.mp among
  refine ⟨i, (a, (d.instructionAt n).renewed (relabelled base s.labels l.offsets)
    (revalued base)), ?_, known, rfl⟩
  rw [linesOf, List.getElem?_map, here, Option.map_some, known, Option.getD_some]

theorem line_mem {i : Nat} {line : Line}
    (found : (linesOf base s.labels d l.offsets d.order.toList)[i]? = some line) :
    s.addresses.size + i ∈ d'.order.toList := by
  have inside := (List.getElem?_eq_some_iff.mp found).1
  rw [r.order]
  exact List.mem_append_left _ (mem_retraced.mpr (.inr ⟨Nat.le_add_right _ _, by omega⟩))

/-- The labels of a script are all placed. -/
theorem label_mem {a m : Nat} (found : s.labels[a]? = some m) : m ∈ d'.order.toList := by
  have known : a ∈ s.labels := by
    rw [Std.HashMap.mem_iff_isSome_getElem?, found]
    rfl
  rw [r.order, List.mem_append, mem_retraced, Option.mem_toList]
  rcases address_of_label r.settled r.covers known with last | ⟨n, among, here⟩
  · exact .inr (last ▸ found)
  · obtain ⟨inside, solid⟩ := Draft.mem_written.mp among
    obtain ⟨i, line, stored, here', -⟩ := r.exists_line inside solid
    cases here.symm.trans here'
    exact .inl (.inl ⟨line, List.mem_of_getElem? stored, found⟩)

theorem order_cases {m : Nat} (member : m ∈ d'.order.toList) :
    (∃ a : Nat, s.labels[a]? = some m) ∨ ∃ (i : Nat) (line : Line), m = s.addresses.size + i ∧
      (linesOf base s.labels d l.offsets d.order.toList)[i]? = some line := by
  rw [r.order, List.mem_append, mem_retraced, Option.mem_toList] at member
  rcases member with (⟨line, -, found⟩ | ⟨low, high⟩) | found
  · exact .inl ⟨line.1, found⟩
  · refine .inr ⟨m - s.addresses.size, _, by omega, List.getElem?_eq_getElem (by omega)⟩
  · exact .inl ⟨l.code.length, found⟩

/-- Every node is a label that is placed or a line. -/
theorem mem_order_of_lt {m : Nat} (inside : m < d'.nodes.size) : m ∈ d'.order.toList := by
  have size : d'.nodes.size = s.addresses.size +
      (linesOf base s.labels d l.offsets d.order.toList).length := by
    rw [r.size_nodes]
    simp [relaid]
  by_cases early : m < s.addresses.size
  · exact r.label_mem ((r.labelled.labels _ m).mpr (Array.getElem?_eq_getElem early))
  · have found := List.getElem?_eq_getElem (show m - s.addresses.size <
      (linesOf base s.labels d l.offsets d.order.toList).length by omega)
    have member := r.line_mem found
    rwa [Nat.add_sub_cancel' (Nat.le_of_not_lt early)] at member

theorem of?_relabelled {n : NodeId} (member : n ∈ d.order.toList) {target : Label}
    (among : target ∈ (d.instructionAt n).targets) :
    (relaid base s d l).offsets.of? (relabelled base s.labels l.offsets target).node =
      l.offsets.of? target.node := by
  obtain ⟨a, m, there, found, same⟩ :=
    exists_relabelled r.settled r.covers base member among
  rw [same, there]
  exact (r.label_known found).1

theorem slotOf_revalued (v : Local) (slot : UInt16) (given : d.slotOf v = .ok slot) :
    d'.slotOf (revalued base v) = .ok slot := by
  unfold Draft.slotOf at given ⊢
  rw [r.locals]
  cases found : d.locals[v.index]? with
  | none =>
      rw [found] at given
      cases given
  | some info =>
      obtain ⟨name, type, fixed, held⟩ := info
      rw [found] at given
      rw [revalued, found]
      cases held with
      | none => cases given
      | some held => exact given

theorem settled' : Layout.Settled pool d' (relaid base s d l) where
  valid := r.valid
  sized := r.size_nodes.symm
  unplaced := by
    intro m absent
    have outside : (relaid base s d l).offsets.size ≤ m := by
      rw [← r.size_nodes]
      exact Nat.le_of_not_lt fun inside => absent (r.mem_order_of_lt inside)
    exact Offsets.of?_of_size_le outside
  written := by
    have written := written_retraced r.settled.written (fun n _ => r.writable n)
      (fun n member target => r.of?_relabelled member) r.slotOf_revalued
      (fun a m => r.label_known) (fun i line => r.line_known)
    rwa [Nat.zero_add, ← r.order] at written
  short := r.settled.short

/-- What a script leaves is laid out as the draft that it retraces. -/
theorem counterpart (bare : d.handlers = #[]) (bare' : d'.handlers = #[])
    (ordinary : ∀ n, (d.instructionAt n).isSubroutineCall = false)
    (stays : ∀ n v, d.instructionAt n ≠ .ret v) :
    Counterpart pool d l d' (relaid base s d l) (relabelled base s.labels l.offsets)
      (revalued base) where
  settled := r.settled
  settled' := r.settled'
  bare := bare
  bare' := bare'
  writable := r.writable
  ordinary := ordinary
  stays := stays
  index _ := rfl
  slots := r.slotOf_revalued
  renewed {n} member solid := by
    obtain ⟨i, line, stored, known, same⟩ := r.exists_line member solid
    obtain ⟨known', instruction⟩ := r.line_known stored
    exact ⟨_, r.line_mem stored, instruction.trans same, known'.trans known.symm⟩
  origin {m} member := by
    rcases r.order_cases member with ⟨a, found⟩ | ⟨i, line, rfl, stored⟩
    · obtain ⟨known, label⟩ := r.label_known found
      have among : a ∈ s.labels := by
        rw [Std.HashMap.mem_iff_isSome_getElem?, found]
        rfl
      obtain ⟨n, inside, target, jumps, there⟩ := (r.covers a).mp among
      refine ⟨target.node, r.settled.targets inside jumps, known.trans there.symm, fun solid => ?_⟩
      rw [label] at solid
      cases solid
    · obtain ⟨known, instruction⟩ := r.line_known stored
      obtain ⟨n, inside, known', same⟩ := r.line_origin stored
      exact ⟨n, inside, known.trans known'.symm, fun _ => instruction.trans same⟩
  targets {n} member {target} among := by
    refine ⟨r.id.symm, ?_, r.of?_relabelled member among⟩
    obtain ⟨a, m, -, found, same⟩ :=
      exists_relabelled r.settled r.covers base member among
    rw [same]
    exact r.label_mem found

end Reconstructed

section Copies

variable {table : Pool.IndexTable} {l : Layout} {s : Script Label Local}

theorem coversTargets_of_listed (writable : d.Writable) {xs : List Listed}
    (listed : List.Forall₂ (ListedAs d pool offsets) (d.written d.order.toList) xs)
    (targets : ∀ a : Nat, a ∈ labels ↔ ∃ x ∈ xs, a ∈ x.instruction.targets) :
    CoversTargets labels d offsets := by
  intro a
  rw [targets]
  constructor
  · rintro ⟨x, member, among⟩
    obtain ⟨n, inside, -, same⟩ := exists_of_forall₂ listed.flip member
    obtain ⟨target, jumps, there⟩ := (same.mem_targets (writable n)).mp among
    exact ⟨n, (Draft.mem_written.mp inside).1, target, jumps, there⟩
  · rintro ⟨n, member, target, among, there⟩
    have solid := Instruction.isLabel_of_target among
    obtain ⟨x, inside, -, same⟩ :=
      exists_of_forall₂ listed (Draft.mem_written.mpr ⟨member, solid⟩)
    exact ⟨x, inside, (same.mem_targets (writable n)).mpr ⟨target, among, there⟩⟩

/-- What is decoded of a layout makes its lines again. -/
theorem redone_linesOf (coherent : base.pool.Coherent) (numbered : base.pool.Numbered)
    (indices : base.pool.indexTable = .ok table) (locals : base.builder.draft.locals = d.locals)
    (known : ∀ n, (d.instructionAt n).Known base.pool d.locals) (writable : d.Writable)
    (bound : SlotsBound base s.slots) (settled : Layout.Settled base.pool d l)
    (labelled : ∀ x ∈ (Listing.decode l.code).instructions, ∀ target ∈ x.instruction.targets,
      target ∈ s.labels) (fixed : List UInt16) :
    List.Forall₂ (fun x line => x.start = line.1 ∧
        ∀ ops, Redone base table fixed { s with ops } x.instruction line.2)
      (Listing.decode l.code).instructions (linesOf base s.labels d l.offsets d.order.toList) := by
  have listed := (List.forall₂_and_left (Listing.decode l.code).instructions _).mpr
    ⟨fun x member => member, (settled.decode writable).2.flip⟩
  refine List.forall₂_map_right_iff.mpr (listed.imp ?_)
  rintro x n ⟨member, here, same⟩
  refine ⟨by rw [here, Option.getD_some], fun ops => ?_⟩
  exact @redone_renewed base table fixed { s with ops } d l.offsets _ _ coherent numbered indices
    locals (known n) (writable n) bound (labelled x member)
    (Listing.formed_decode l.code x member) same

/-- Copying the code of a layout into a builder with the same locals and no nodes retraces the
layout. -/
theorem exists_copy {body : Body} (fresh : base.withNodes #[] #[] = base)
    (reachable : base.builder.draft.Reachable) (owner : body.className = base.builder.owner.text)
    (bare : body.handlers = []) (unlined : body.lines = []) (code : body.code = l.code)
    {types : List FieldType} {slots : SlotMap Local} (typed : body.argumentTypes = .ok types)
    (counted : types.length = base.builder.arguments.length)
    (given : SlotMap.bind (fun v => (·.type) <$> base.builder.draft.localInfo v) 0 ∅ types
      base.builder.arguments = .ok slots) (bound : SlotsBound base slots)
    (coherent : base.pool.Coherent) (numbered : base.pool.Numbered)
    (indices : base.pool.indexTable = .ok table) (locals : base.builder.draft.locals = d.locals)
    (known : ∀ n, (d.instructionAt n).Known base.pool d.locals) (writable : d.Writable)
    (settled : Layout.Settled base.pool d l) :
    ∃ s nodes order,
      body.copyInto table none none base = (⟨none, [], []⟩, base.withNodes nodes order) ∧
      Reconstructed base.pool d l base s (base.withNodes nodes order).builder.draft := by
  obtain ⟨reported, listed⟩ := settled.decode writable
  rw [← code] at reported
  obtain ⟨s, labelled, rfl, targets, complete⟩ :=
    copyInto_eq fresh table owner bare unlined (code ▸ settled.short) reported typed counted given
  rw [code] at targets complete
  have covers := coversTargets_of_listed writable listed targets
  have redone := redone_linesOf coherent numbered indices locals known writable bound settled
    (fun x member target among => (targets target).mpr ⟨x, member, among⟩)
    (Listing.decode l.code).returnSlots
  obtain ⟨increasing, between⟩ := settled.written.offsets_lt
  have addresses : (linesOf base s.labels d l.offsets d.order.toList).map (·.1) =
      (d.written d.order.toList).map fun n => (l.offsets.of? n).getD 0 := List.map_map ..
  have past : l.code.length ∉ (linesOf base s.labels d l.offsets d.order.toList).map (·.1) := by
    rw [addresses, List.mem_map]
    rintro ⟨n, member, last⟩
    obtain ⟨a, here, -, before⟩ := between n member
    rw [here, Option.getD_some] at last
    omega
  have starts : ∀ a ∈ s.labels, a = l.code.length ∨
      ∃ x ∈ (Listing.decode l.code).instructions, x.start = a := by
    intro a label
    refine (address_of_label settled covers label).imp_right ?_
    rintro ⟨n, member, here⟩
    obtain ⟨x, inside, here', -⟩ := exists_of_forall₂ listed member
    exact ⟨x, inside, Option.some.inj (here'.symm.trans here)⟩
  obtain ⟨nodes, order, copied, instructions, placed⟩ := complete _ redone
    (fun line => refers_linesOf settled covers locals)
    (addresses ▸ increasing.imp Nat.ne_of_lt) past starts
  have edits := body.edits_copyInto table none none base
  rw [copied] at edits
  exact ⟨s, nodes, order, copied, settled, writable, labelled, covers, rfl,
    (Draft.reachable_of_edits edits reachable).valid, locals, instructions, placed⟩

end Copies

end Emit

namespace Allocation

variable {liveness : Liveness} {a : Allocation}

/-- Where all slots are fixed there is nothing to place. -/
theorem placeAll_fixed (fixed : ∀ info ∈ a.locals, info.fixedSlot ≠ none) (vs : List Nat) :
    placeAll liveness vs a = (.ok (), a) := by
  induction vs with
  | nil => rfl
  | cons v vs ih =>
      have still : place liveness v a = (.ok (), a) := by
        unfold place
        cases found : a.locals[v]? with
        | none => rfl
        | some info =>
            obtain ⟨name, type, fixedSlot, slot⟩ := info
            cases fixedSlot with
            | none => exact absurd rfl (fixed _ (Array.mem_of_getElem? found))
            | some _ => rfl
      rw [placeAll, still]
      exact ih

/-- How large a frame fixed slots need does not depend on where locals are live. -/
theorem foldl_claimFixed_frame (liveness liveness' : Liveness) (vs : List Nat) {a a' : Allocation}
    (locals : a'.locals = a.locals) (frame : a'.frame = a.frame) :
    (vs.foldl (claimFixed liveness') a').frame = (vs.foldl (claimFixed liveness) a).frame := by
  induction vs generalizing a a' with
  | nil => exact frame
  | cons v vs ih =>
      refine ih ?_ ?_
      · rw [claimFixed_locals, claimFixed_locals, locals]
      · unfold claimFixed
        rw [locals]
        cases a.locals[v]? with
        | none => exact frame
        | some info =>
            obtain ⟨name, type, fixedSlot, slot⟩ := info
            cases fixedSlot with
            | none => exact frame
            | some fixedSlot => exact congrArg (max · _) frame

end Allocation

namespace Draft

variable {d d' slotted : Draft} {frame : UInt16}

/-- The size of the frame for the reserved slots and those that are fixed. -/
def fixedFrame (liveness : Liveness) (d : Draft) : Nat :=
  ((List.range d.locals.size).foldl (Allocation.claimFixed liveness)
    ⟨d.locals, #[], d.reservedSlots.toNat⟩).frame

/-- With fixed slots only, allocation changes nothing. -/
theorem allocateSlots_of_fixed (fixed : ∀ info ∈ d.locals, info.fixedSlot ≠ none)
    (liveness : Liveness) : allocateSlots liveness d =
      (if d.fixedFrame liveness > 65535 then .error (.maxLocalsOverflow (d.fixedFrame liveness))
        else .ok (UInt16.ofNat (d.fixedFrame liveness)), d) := by
  have claimed := Allocation.foldl_claimFixed_locals liveness (List.range d.locals.size)
    ⟨d.locals, #[], d.reservedSlots.toNat⟩
  unfold allocateSlots fixedFrame
  dsimp only
  rw [Allocation.placeAll_fixed (by rw [claimed]; exact fixed)]
  dsimp only
  rw [claimed]
  split <;> rfl

/-- Drafts with the same fixed slots have frames of one size. -/
theorem allocateSlots_again_of_fixed {liveness : Liveness}
    (fixed : ∀ info ∈ d.locals, info.fixedSlot ≠ none) (locals : d'.locals = d.locals)
    (reserved : d'.reservedSlots = d.reservedSlots)
    (allocated : allocateSlots liveness d = (.ok frame, slotted)) (liveness' : Liveness) :
    allocateSlots liveness' d' = (.ok frame, d') := by
  have same : d'.fixedFrame liveness' = d.fixedFrame liveness := by
    unfold fixedFrame
    rw [locals, reserved, Allocation.foldl_claimFixed_frame liveness liveness' _ rfl rfl]
  rw [allocateSlots_of_fixed fixed, Prod.mk.injEq] at allocated
  rw [allocateSlots_of_fixed (locals ▸ fixed), same, allocated.1]

end Draft

namespace Counterpart

open Draft

variable {pool : Pool} {d ready d' : Draft} {l l' : Layout} {label : Label → Label}
  {var : Local → Local} {f : Flow} {frame depth : UInt16}

/-- The counterpart of a draft without slots to choose resolves to the same code. -/
theorem resolve (c : Counterpart pool ready l d' l' label var) (valid : d.Valid)
    (prepared : Prepared d f frame ready) (measured : f.maxStack = .ok depth)
    (fixed : ∀ info ∈ d.locals, info.fixedSlot ≠ none) (locals : d'.locals = d.locals)
    (reserved : d'.reservedSlots = d.reservedSlots) (untracked : d'.tracksLocals = false)
    (unlined : d'.lines = #[]) :
    d'.resolve pool = (.ok ⟨depth, frame, l'.code, [], [], []⟩, d') := by
  have valid' := c.settled'.valid
  obtain ⟨f', flow'⟩ := exists_flow valid' c.labelsPlaced
  have allocated := allocateSlots_again_of_fixed fixed locals reserved prepared.allocated
    (.ofFlow f' d'.locals.size)
  have deep : f'.maxStack = .ok depth :=
    (maxStack_eq_ok_iff c.callFree' valid' flow').mpr
      (c.balanced ((maxStack_eq_ok_iff c.callFree prepared.valid prepared.flow_ready).mp measured))
  have marked : d'.markDeadStores (.ofFlow f' d'.locals.size) = d' := by
    refine markDeadStores_eq_self valid'.nodup fun j x here => ?_
    cases x with
    | store v kind discard =>
        obtain ⟨rfl, i, w, there, same, live⟩ := c.store_origin here
        obtain ⟨n, stored, found⟩ := Option.map_eq_some_iff.mp here
        have inside : v.index < d'.locals.size :=
          ((valid'.owns n).defines v (by rw [found]; rfl)).2
        have inside' : w.index < d.locals.size := by rwa [← same, ← locals]
        -- The store was kept, so what it writes is read later.
        have kept := prepared.marked i _ there
        rw [Instruction.marked, Instruction.store.injEq, Bool.not_eq_false', contains_exitOf valid
          prepared.flow inside'] at kept
        have read := live ((liveOut_congr valid prepared.valid prepared.flow prepared.flow_ready
          prepared.moved.size inside').mpr kept.2.2)
        rw [Instruction.marked, (contains_exitOf valid' flow' inside).mpr read]
        rfl
    | _ => rfl
  refine resolve_eq_ok.mpr ⟨f', frame, depth, d', l', flow', allocated, deep, ?_, ?_⟩
  · rw [marked]
    exact c.settled'.layout
  · rw [marked, untracked, assemble, c.bare', unlined]
    rfl

end Counterpart

end JvmAssembly
