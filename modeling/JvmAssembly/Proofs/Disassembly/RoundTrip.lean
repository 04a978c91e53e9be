import Mathlib
import JvmAssembly.Proofs.Builder.Emission
import JvmAssembly.Proofs.Draft.ControlFlow
import JvmAssembly.Proofs.Draft.Evaluation
import JvmAssembly.Proofs.Draft.Flow

/-!
Decoding the code of a layout lists its nodes. Since each instruction reads back with exactly its
own bytes, the decoder stays in step with the nodes from the first to the last.
-/
namespace JvmAssembly

/-- A node is listed at the offset that it was given, as the instruction it holds. -/
structure ListedAs (d : Draft) (pool : Pool) (offsets : Offsets) (n : NodeId) (x : Listed) :
    Prop where
  here : offsets.of? n = some x.start
  same : Corresponds d pool offsets (d.instructionAt n) x.instruction

theorem Instruction.isLabel_iff {x : Instruction} : x.isLabel = true ↔ x = .label := by
  cases x <;> simp [Instruction.isLabel]

/-- Nodes other than labels, which are the ones with bytes. -/
def Draft.written (d : Draft) (nodes : List NodeId) : List NodeId :=
  nodes.filter fun n => !(d.instructionAt n).isLabel

namespace Listing

open Encoding Scan

variable {whole : Array UInt8}

theorem decodeFrom_nil (instructions : Array Listed) (reports : Array Report) (position : Nat) :
    decodeFrom whole instructions reports ⟨position, []⟩ =
      ⟨instructions.toList, reports.toList⟩ := by
  rw [decodeFrom]
  rfl

theorem decodeFrom_read {position : Nat} {bytes rest : Bytes} {i : Decoded}
    (read : ReadsAt position Decoded.read bytes i) (supported : i ≠ .unsupported)
    (short : position ≤ 65535) (instructions : Array Listed) (reports : Array Report) :
    decodeFrom whole instructions reports ⟨position, bytes ++ rest⟩ =
      decodeFrom whole (instructions.push ⟨position, position + bytes.length, i⟩) reports
        ⟨position + bytes.length, rest⟩ := by
  cases bytes with
  | nil => cases read []
  | cons b bytes =>
      have found := read rest
      rw [decodeFrom]
      simp only [List.cons_append, List.isEmpty_cons, Bool.false_eq_true, if_false,
        addressOf_of_le short] at found ⊢
      split
      · rename_i failed
        rw [failed] at found
        cases found
      · rename_i i' c' decoded
        rw [decoded] at found
        cases found
        rw [if_neg supported]

variable {d : Draft} {pool : Pool} {offsets : Offsets} {offset : Nat} {nodes : List NodeId}
  {code : Bytes}

/-- Code that was written node by node is decoded node by node. -/
theorem decodeFrom_written (h : Written d pool offsets offset nodes code)
    (short : offset + code.length ≤ 65535)
    (writable : ∀ n ∈ nodes, (d.instructionAt n).Writable d.locals)
    (known : ∀ n ∈ nodes, ∀ label ∈ (d.instructionAt n).targets, Known offsets label)
    (instructions : Array Listed) (reports : Array Report) :
    ∃ listed, decodeFrom whole instructions reports ⟨offset, code⟩ =
        ⟨instructions.toList ++ listed, reports.toList⟩ ∧
      List.Forall₂ (ListedAs d pool offsets) (d.written nodes) listed := by
  induction h generalizing instructions with
  | nil offset =>
      refine ⟨[], ?_, .nil⟩
      rw [decodeFrom_nil, List.append_nil]
  | @cons offset node rest bytes more here encoded _ ih =>
      rw [List.length_append, ← Nat.add_assoc] at short
      rw [List.forall_mem_cons] at writable known
      have later := ih short writable.2 known.2
      by_cases isLabel : d.instructionAt node = .label
      · rw [isLabel] at encoded
        cases encoded
        obtain ⟨listed, decoded, lists⟩ := later instructions
        refine ⟨listed, decoded, ?_⟩
        rwa [Draft.written, List.filter_cons_of_neg (by simp [Instruction.isLabel_iff.mpr isLabel])]
      · obtain ⟨i, same, read⟩ := readsAt_encode (by omega) (by omega) known.1 writable.1 isLabel
          encoded
        obtain ⟨listed, decoded, lists⟩ :=
          later (instructions.push ⟨offset, offset + bytes.length, i⟩)
        refine ⟨⟨offset, offset + bytes.length, i⟩ :: listed, ?_, ?_⟩
        · rw [decodeFrom_read read same.supported (by omega), decoded, Array.toList_push,
            List.append_assoc, List.singleton_append]
        · rw [Draft.written,
            List.filter_cons_of_pos (by simpa [← Instruction.isLabel_iff] using isLabel)]
          exact .cons ⟨here, same⟩ lists

/-- The decoder makes no report on the code of a layout, and lists its nodes. -/
theorem decode_written (h : Written d pool offsets 0 nodes code) (short : code.length ≤ 65535)
    (writable : ∀ n ∈ nodes, (d.instructionAt n).Writable d.locals)
    (known : ∀ n ∈ nodes, ∀ label ∈ (d.instructionAt n).targets, Known offsets label) :
    (decode code).reports = [] ∧
      List.Forall₂ (ListedAs d pool offsets) (d.written nodes) (decode code).instructions := by
  obtain ⟨listed, decoded, lists⟩ :=
    decodeFrom_written h (by omega) writable known #[] #[]
  rw [decode, Cursor.start, decoded]
  exact ⟨rfl, lists⟩

end Listing

namespace Draft

/-- Jumps still lead into the sequence when slots are given and stores decided. -/
theorem target_mem_marked {d slotted : Draft} (valid : d.Valid) {f : Flow} (flow : d.flow = .ok f)
    {frame : UInt16} {liveness : Liveness}
    (allocated : allocateSlots liveness d = (.ok frame, slotted)) :
    ∀ n ∈ (slotted.markDeadStores liveness).order.toList,
      ∀ label ∈ ((slotted.markDeadStores liveness).instructionAt n).targets,
        label.node ∈ (slotted.markDeadStores liveness).order.toList := by
  have order : (slotted.markDeadStores liveness).order = d.order := by
    rw [markDeadStores_eq, (allocateSlots_reslotted allocated).1]
  have instruction : ∀ n, slotted.instructionAt n = d.instructionAt n := by
    intro n
    rw [(allocateSlots_reslotted allocated).1]
    rfl
  rw [order]
  intro n member label target
  apply target_mem_order valid flow member
  rcases instructionAt_markDeadStores_or liveness (valid.allocateSlots allocated).nodup n with
    same | ⟨i, marked⟩
  · rwa [same, instruction] at target
  · rwa [marked, Instruction.targets_marked, instruction] at target

end Draft

/-- The code of a method reads back as its draft: nothing is reported, and the instructions that
are listed are those of the draft after layout, in their order and at the offsets of the layout. -/
theorem Builder.decode_resolve {b : Builder} (built : b.Built) {pool : Pool} {c : Code} {d : Draft}
    (h : b.draft.resolve pool = (.ok c, d)) :
    ∃ (f : Flow) (frame : UInt16) (slotted : Draft) (l : Layout), b.draft.flow = .ok f ∧
      Draft.allocateSlots (.ofFlow f b.draft.locals.size) b.draft = (.ok frame, slotted) ∧
      (slotted.markDeadStores (.ofFlow f b.draft.locals.size)).layout pool = (.ok l, d) ∧
      c.code = l.code ∧ (Listing.decode c.code).reports = [] ∧
      List.Forall₂ (ListedAs d pool l.offsets) (d.written d.order.toList)
        (Listing.decode c.code).instructions := by
  obtain ⟨f, frame, depth, slotted, l, flow, allocated, -, layout, assembled⟩ :=
    Draft.resolve_eq_ok.mp h
  have code := Draft.code_assemble assembled
  have valid := built.emitted.reachable.valid
  have marked := (valid.allocateSlots allocated).markDeadStores
    (Liveness.ofFlow f b.draft.locals.size)
  obtain ⟨written, short⟩ := Layout.layout_written marked layout
  have writable : d.Writable := by
    have kept := built.emitted.writable.resolve valid pool
    rwa [h] at kept
  have placed := (Draft.Retains.widened marked (Layout.layout_widens marked layout)).targets
    (Draft.target_mem_marked valid flow allocated)
  have known : ∀ n ∈ d.order.toList, ∀ label ∈ (d.instructionAt n).targets,
      Encoding.Known l.offsets label := by
    intro n member label target
    obtain ⟨before, bytes, after, split, there, -⟩ := written.mem (placed n member label target)
    refine ⟨0 + before.length, ?_, there⟩
    rw [split] at short
    simp only [List.length_append] at short
    omega
  refine ⟨f, frame, slotted, l, flow, allocated, layout, code, ?_⟩
  rw [code]
  exact Listing.decode_written written short (fun n _ => writable n) known

namespace Builder

/-- Counts down from seven. -/
def counting : Builder :=
  let ops : List (Op Label Local) := [
    .createLocal none .int, .createLabel, .loadConstant (.int 7), .storeLocal ⟨0, 0⟩,
    .placeLabel ⟨0, 0⟩, .increment ⟨0, 0⟩ (-1), .loadLocal ⟨0, 0⟩, .ifZero ⟨0, 0⟩ .ne,
    .returnValue none]
  ops.foldl (fun b op => (Emit.perform op ⟨.empty, b⟩).2.builder)
    (initial 0 .object ⟨[], none⟩ true)

theorem Built.foldl {b : Builder} (built : b.Built) (pool : Pool) (ops : List (Op Label Local)) :
    (ops.foldl (fun b op => (Emit.perform op ⟨pool, b⟩).2.builder) b).Built := by
  induction ops generalizing b with
  | nil => exact built
  | cons op ops ih => exact ih (built.perform pool op)

theorem built_counting : counting.Built :=
  Built.foldl (.create (create_eq_ok.mpr ⟨by decide, rfl⟩)) .empty _

theorem resolve_counting : ∃ c d, counting.draft.resolve .empty = (.ok c, d) ∧
    c.code = [16, 7, 59, 132, 0, 255, 26, 154, 255, 252, 177] := by
  have computed : (counting.draft.resolveWithin 20 .empty).map (fun r => (r.1.toOption, ())) =
      some (some ⟨1, 1, [16, 7, 59, 132, 0, 255, 26, 154, 255, 252, 177], [], [], []⟩, ()) := by
    decide +kernel
  obtain ⟨d, resolved, -⟩ := Draft.exists_resolve_of_within (fun _ => ()) computed
  exact ⟨_, d, resolved, rfl⟩

theorem decode_resolve_counting : counting.Built ∧ ∃ c d,
    counting.draft.resolve .empty = (.ok c, d) ∧
    c.code = [16, 7, 59, 132, 0, 255, 26, 154, 255, 252, 177] ∧
    ∃ (f : Flow) (frame : UInt16) (slotted : Draft) (l : Layout), counting.draft.flow = .ok f ∧
      Draft.allocateSlots (.ofFlow f counting.draft.locals.size) counting.draft =
        (.ok frame, slotted) ∧
      (slotted.markDeadStores (.ofFlow f counting.draft.locals.size)).layout .empty = (.ok l, d) ∧
      c.code = l.code ∧ (Listing.decode c.code).reports = [] ∧
      List.Forall₂ (ListedAs d .empty l.offsets) (d.written d.order.toList)
        (Listing.decode c.code).instructions := by
  obtain ⟨c, d, resolved, code⟩ := resolve_counting
  exact ⟨built_counting, c, d, resolved, code, decode_resolve built_counting resolved⟩

end Builder

end JvmAssembly
