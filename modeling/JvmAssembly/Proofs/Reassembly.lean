import Mathlib
import JvmAssembly.Proofs.Builder.Inlining
import JvmAssembly.Proofs.ClassFile.RoundTrip
import JvmAssembly.Proofs.Draft.Evaluation
import JvmAssembly.Reassembly

/-!
What assembling a class again leaves alone. The pool only grows at its end, so every index of the
class still stands for the entry that it stood for, and of a method only the first body can change.
-/
namespace JvmAssembly

namespace Pool

variable {p q p' q' : Pool}

/-- Indices in order of insertion stay when more entries follow. -/
theorem table_prefix {n n' : Numbering} (grown : p.Extends q)
    (numbers : p.Numbers (p.ordered .preserve) n) (numbers' : q.Numbers (q.ordered .preserve) n') :
    n.entryAt.toList <+: n'.entryAt.toList := by
  obtain ⟨more, same⟩ := grown
  have size : q.size = p.size + more.length := by
    rw [Pool.size, ← Array.length_toList, ← same, List.length_append, Array.length_toList]
    rfl
  have widths : ∀ i ∈ List.range p.size, widthAt q.entries i = widthAt p.entries i := by
    intro i member
    have inside : i < p.entries.toList.length := by
      rw [Array.length_toList]
      exact List.mem_range.mp member
    rw [widthAt, widthAt, ← Array.getElem?_toList, ← Array.getElem?_toList, ← same,
      List.getElem?_append_left inside]
  rw [numbers.table, numbers'.table]
  refine List.cons_prefix_cons.mpr ⟨rfl, ?_⟩
  rw [ordered, ordered, size, List.range_add, spread_append, spread_congr widths]
  exact List.prefix_append _ _

/-- Every index and every position stands for the entry that it stood for. -/
structure Keeps (p q : Pool) : Prop where
  entry {index : UInt16} {ref : ConstantRef} (found : p.entryAt index = .ok ref) :
    q.entryAt index = .ok ref
  constant {ref : ConstantRef} {c : Constant} (found : p.get ref = .ok c) : q.get ref = .ok c
  raw {ref : ConstantRef} {c : RawConstant} (found : p.raw ref = .ok c) : q.raw ref = .ok c

theorem keeps_of_assign (assigned : p.assign .preserve = .ok p') (grown : p'.Extends q)
    (assigned' : q.assign .preserve = .ok q') : p'.Keeps q' := by
  have numbered := numbered_of_assign assigned
  have numbered' := numbered_of_assign assigned'
  obtain ⟨n, rfl, numbers⟩ := numbers_of_assign assigned
  obtain ⟨n', rfl, numbers'⟩ := numbers_of_assign assigned'
  obtain ⟨more, same⟩ := table_prefix (p := p) grown numbers numbers'
  have entry : ∀ {index ref}, entryAt { p with numbering := some n } index = .ok ref →
      entryAt { q with numbering := some n' } index = .ok ref := by
    intro index ref found
    rw [entryAt_eq_ok rfl, ← Array.getElem?_toList] at found ⊢
    rw [← same, List.getElem?_append_left (List.getElem?_eq_some_iff.mp found).1, found]
  refine ⟨entry, fun found => ?_, fun found => ?_⟩
  · exact get_eq_ok.mpr (grown.entry (get_eq_ok.mp found))
  · obtain ⟨c', here, linked⟩ := raw_eq_ok.mp found
    exact raw_eq_ok.mpr ⟨c', grown.entry here, linked.mono fun known =>
      numbered'.indexOf_iff.mpr (entry (numbered.indexOf_iff.mp known))⟩

theorem Keeps.text {index : UInt16} {s : String} (keeps : p.Keeps q)
    (found : p.textAt index = .ok s) : q.textAt index = .ok s := by
  obtain ⟨ref, entry, text⟩ := bind_eq_ok.mp found
  obtain ⟨c, constant, said⟩ := bind_eq_ok.mp text
  exact bind_eq_ok.mpr ⟨ref, keeps.entry entry, bind_eq_ok.mpr ⟨c, keeps.constant constant, said⟩⟩

end Pool

namespace Attribute

theorem decode_eq_none {a : Attribute} {kind : AttributeKind} {pool : Pool}
    (found : a.decode kind pool = .ok none) : ∃ s, a.name pool = .ok s ∧ s ≠ kind.name := by
  obtain ⟨s, named, rest⟩ := bind_eq_ok.mp found
  refine ⟨s, named, fun same => ?_⟩
  rw [if_pos same] at rest
  obtain ⟨r, _, last⟩ := bind_eq_ok.mp rest
  split at last <;> cases last

theorem decode_eq_some {a : Attribute} {kind : AttributeKind} {pool : Pool} {body : AttributeBody}
    (found : a.decode kind pool = .ok (some body)) : a.name pool = .ok kind.name := by
  obtain ⟨s, named, rest⟩ := bind_eq_ok.mp found
  split at rest
  · rename_i same
    rw [named, same]
  · cases rest

/-- The first attribute with the name of a kind, and those before it. -/
theorem find_eq_some {kind : AttributeKind} {pool : Pool} {attributes : List Attribute}
    {body : AttributeBody} (found : find kind pool attributes = .ok (some body)) :
    ∃ before a after, attributes = before ++ a :: after ∧
      (∀ x ∈ before, ∃ s, x.name pool = .ok s ∧ s ≠ kind.name) ∧
      a.name pool = .ok kind.name := by
  induction attributes with
  | nil => cases found
  | cons a rest ih =>
      rw [find] at found
      split at found
      · cases found
      · rename_i first
        exact ⟨[], a, rest, rfl, nofun, decode_eq_some first⟩
      · rename_i first
        obtain ⟨before, b, after, rfl, others, named⟩ := ih found
        refine ⟨a :: before, b, after, rfl, ?_, named⟩
        exact List.forall_mem_cons.mpr ⟨decode_eq_none first, others⟩

end Attribute

namespace Reassembly

/-- A body takes the place of the first one. -/
theorem replaceCode_eq_ok {pool : Pool} {code a : Attribute} {before after out : List Attribute}
    (others : ∀ x ∈ before, ∃ s, x.name pool = .ok s ∧ s ≠ AttributeKind.code.name)
    (named : a.name pool = .ok AttributeKind.code.name)
    (replaced : replaceCode pool code (before ++ a :: after) = .ok out) :
    out = before ++ code :: after := by
  induction before generalizing out with
  | nil =>
      obtain ⟨s, known, last⟩ := bind_eq_ok.mp replaced
      cases named.symm.trans known
      cases last
      rfl
  | cons x before ih =>
      rw [List.forall_mem_cons] at others
      obtain ⟨s, known, last⟩ := bind_eq_ok.mp replaced
      obtain ⟨s', known', other⟩ := others.1
      cases known.symm.trans known'
      rw [if_neg other] at last
      obtain ⟨rest, deeper, last⟩ := bind_eq_ok.mp last
      cases last
      rw [ih others.2 deeper, List.cons_append]

/-- A script that is complete reports what its listing does. -/
theorem reports_disassemble {lab loc : Type} {b : Body} {k : Constants}
    {typeOf : loc → Except Fault FieldType} {arguments : List loc} {exit : Option lab}
    (complete : (b.disassemble k typeOf arguments exit).fault = none) :
    (b.disassemble k typeOf arguments exit).reports = (Listing.decode b.code).reports := by
  unfold Body.disassemble at complete ⊢
  dsimp only at complete ⊢
  split at complete
  · cases complete
  · split at complete
    · cases complete
    · split at complete
      · cases complete
      · split at complete
        · rename_i fits _ _ _ _ _ _
          rw [if_neg fits]
        · cases complete

theorem reports_copyInto {b : Body} {table : Pool.IndexTable} {arguments : Option (List Local)}
    {exit : Option Label} {ws : Workspace}
    (complete : (b.copyInto table arguments exit ws).1.fault = none) :
    (b.copyInto table arguments exit ws).1.reports = (Listing.decode b.code).reports := by
  unfold Body.copyInto at complete ⊢
  dsimp only at complete ⊢
  split at complete
  · cases complete
  · exact reports_disassemble complete

theorem run_warn (ws : List Nat) (p : Progress) :
    ∃ p', (ws.forM fun address => warn (.strayTarget address) : Task Unit) p = (.ok (), p') ∧
      p'.pool = p.pool := by
  induction ws generalizing p with
  | nil => exact ⟨p, rfl, rfl⟩
  | cons w ws ih =>
      obtain ⟨p', rest, same⟩ := ih ⟨p.pool, p.warnings.push (.strayTarget w)⟩
      exact ⟨p', run_bind_eq_ok.mpr ⟨(), _, rfl, rest⟩, same⟩

theorem copy_eq_ok {b : Body} {c : Context} {builder : Builder} {p p' : Progress} {copied : Copied}
    {draft : Draft} (ran : copy b c builder p = (.ok (copied, draft), p')) :
    p.pool.Extends p'.pool ∧
      (copied.fault = none → copied.reports = (Listing.decode b.code).reports) := by
  obtain ⟨pool, warnings⟩ := p
  have work := b.works_copyInto c.table none none ⟨pool, builder⟩
  have said := @reports_copyInto b c.table none none ⟨pool, builder⟩
  simp only [copy] at ran
  cases ran
  exact ⟨Pool.extends_of_interned (Emit.pools_of_worked work), said⟩

/-- Rebuilding a body interns constants, and a body with reports is not rebuilt. -/
theorem rebuild_eq_ok {c : Context} {id : Nat} {m : MethodInfo} {previous : Previous}
    {p p' : Progress} {r : Option Draft} (ran : rebuild c id m previous p = (.ok r, p')) :
    p.pool.Extends p'.pool ∧ ((Listing.decode previous.code.code).reports ≠ [] → r = none) := by
  obtain ⟨descriptor, p₁, known, ran⟩ := run_bind_eq_ok.mp ran
  obtain ⟨_, rfl⟩ := Prod.mk.inj known
  obtain ⟨builder, p₁, created, ran⟩ := run_bind_eq_ok.mp ran
  obtain ⟨_, rfl⟩ := Prod.mk.inj created
  obtain ⟨⟨copied, draft⟩, p₂, copying, ran⟩ := run_bind_eq_ok.mp ran
  obtain ⟨_, p₃, warned, ran⟩ := run_bind_eq_ok.mp ran
  obtain ⟨grown, reports⟩ := copy_eq_ok copying
  have same : p₃.pool = p₂.pool := by
    obtain ⟨p₄, other, same⟩ := run_warn copied.stray p₂
    cases warned.symm.trans other
    exact same
  rw [← same] at grown
  cases failed : copied.fault with
  | some fault =>
      simp only [failed] at ran
      cases ran
  | none =>
      cases said : copied.reports with
      | nil =>
          simp only [failed, said] at ran
          cases ran
          exact ⟨grown, fun some => absurd ((reports failed).symm.trans said) some⟩
      | cons report others =>
          simp only [failed, said] at ran
          split at ran
          · cases ran
          · obtain ⟨p₄, p₅, got, ran⟩ := run_bind_eq_ok.mp ran
            cases got
            obtain ⟨_, p₆, warned, ran⟩ := run_bind_eq_ok.mp ran
            cases warned
            cases ran
            exact ⟨grown, fun _ => rfl⟩

/-- What becomes of a method before its body is laid out. -/
def Rebuilt (start : MethodInfo × Option Previous) (out : MethodInfo × Option Draft) : Prop :=
  out.1 = start.1 ∧ ∀ draft, out.2 = some draft → ∃ previous, start.2 = some previous ∧
    (Listing.decode previous.code.code).reports = []

theorem rebuildAll_eq_ok {c : Context} {done : Array (MethodInfo × Option Draft)} {id : Nat}
    {methods : List (MethodInfo × Option Previous)} {p p' : Progress}
    {out : List (MethodInfo × Option Draft)}
    (ran : rebuildAll c done id methods p = (.ok out, p')) :
    p.pool.Extends p'.pool ∧ ∃ rest, out = done.toList ++ rest ∧
      List.Forall₂ Rebuilt methods rest := by
  induction methods generalizing done id p with
  | nil =>
      cases ran
      exact ⟨List.prefix_refl _, [], (List.append_nil _).symm, .nil⟩
  | cons method methods ih =>
      obtain ⟨m, previous⟩ := method
      cases previous with
      | none =>
          obtain ⟨grown, rest, made, each⟩ := ih ran
          refine ⟨grown, (m, none) :: rest, ?_, .cons ⟨rfl, nofun⟩ each⟩
          rw [made, Array.toList_push, List.append_assoc, List.singleton_append]
      | some previous =>
          obtain ⟨draft, p₁, one, ran⟩ := run_bind_eq_ok.mp ran
          obtain ⟨first, reported⟩ := rebuild_eq_ok one
          obtain ⟨grown, rest, made, each⟩ := ih ran
          refine ⟨first.trans grown, (m, draft) :: rest, ?_, .cons ⟨rfl, fun d some => ?_⟩ each⟩
          · rw [made, Array.toList_push, List.append_assoc, List.singleton_append]
          · refine ⟨previous, rfl, ?_⟩
            by_contra reports
            cases (reported reports).symm.trans some

theorem previous?_eq_ok {settings : Settings} {pool : Pool} {m : MethodInfo} {previous : Previous}
    (known : previous? settings pool m = .ok (some previous)) :
    m.code pool = .ok (some previous.code) := by
  obtain ⟨code, found, rest⟩ := bind_eq_ok.mp known
  cases code with
  | none => cases rest
  | some code =>
      dsimp only at rest
      split at rest <;>
        obtain ⟨lines, _, rest⟩ := bind_eq_ok.mp rest <;>
        obtain ⟨descriptor, _, last⟩ := bind_eq_ok.mp rest <;>
        cases last <;>
        exact found

theorem find_of_code {pool : Pool} {m : MethodInfo} {code : CodeAttribute}
    (found : m.code pool = .ok (some code)) :
    ∃ body, Attribute.find .code pool m.attributes = .ok (some body) := by
  obtain ⟨body, there, last⟩ := bind_eq_ok.mp found
  split at last
  · exact ⟨_, there⟩
  · cases last

theorem prepare_eq_ok {settings : Settings} {f : ClassFile} {c : Context}
    {methods : List (MethodInfo × Option Previous)}
    (prepared : prepare settings f = .ok (c, methods)) :
    List.Forall₂ (fun m start => start.1 = m ∧ previous? settings f.pool m = .ok start.2)
      f.methods methods := by
  obtain ⟨table, _, rest⟩ := bind_eq_ok.mp prepared
  obtain ⟨name, _, rest⟩ := bind_eq_ok.mp rest
  obtain ⟨name, _, rest⟩ := bind_eq_ok.mp rest
  obtain ⟨methods, each, last⟩ := bind_eq_ok.mp rest
  cases last
  refine (mapM_eq_ok.mp each).imp fun m start one => ?_
  obtain ⟨previous, known, last⟩ := bind_eq_ok.mp one
  cases last
  exact ⟨rfl, known⟩

theorem finish_eq_ok {f g : ClassFile} {pool : Pool} {methods : List (MethodInfo × Option Draft)}
    (finished : finish f pool methods = .ok g) :
    ∃ pool', (Interning.text AttributeKind.code.name pool).2.assign .preserve = .ok pool' ∧
      ∃ methods', List.Forall₂ (fun m m' => finishMethod pool' m = .ok m') methods methods' ∧
        g = { f with pool := pool', methods := methods' } := by
  obtain ⟨pool', assigned, rest⟩ := bind_eq_ok.mp finished
  obtain ⟨methods', each, last⟩ := bind_eq_ok.mp rest
  cases last
  exact ⟨pool', assigned, methods', mapM_eq_ok.mp each, rfl⟩

/-- Of a method at most the first body changes. -/
inductive Reassembled (pool : Pool) (m : MethodInfo) : MethodInfo → Prop
  | kept : Reassembled pool m m
  | replaced {before after : List Attribute} {code code' : Attribute}
      (split : m.attributes = before ++ code :: after)
      (others : ∀ a ∈ before, a.name pool ≠ .ok AttributeKind.code.name)
      (named : code.name pool = .ok AttributeKind.code.name) :
      Reassembled pool m { m with attributes := before ++ code' :: after }

/-- A method that keeps its body is the same as before. -/
structure Frame (pool : Pool) (m m' : MethodInfo) : Prop where
  reassembled : Reassembled pool m m'
  bodiless : (∀ a ∈ m.attributes, a.name pool ≠ .ok AttributeKind.code.name) → m' = m
  reported : ∀ code, m.code pool = .ok (some code) → (Listing.decode code.code).reports ≠ [] →
    m' = m

theorem frame_of_finish {settings : Settings} {pool pool' : Pool} (keeps : pool.Keeps pool')
    {m m' : MethodInfo} {start : MethodInfo × Option Previous} {out : MethodInfo × Option Draft}
    (known : start.1 = m ∧ previous? settings pool m = .ok start.2) (rebuilt : Rebuilt start out)
    (finished : finishMethod pool' out = .ok m') : Frame pool m m' := by
  obtain ⟨m₁, previous⟩ := start
  obtain ⟨m₂, draft⟩ := out
  obtain ⟨rfl, known⟩ := known
  obtain ⟨rfl, some⟩ := rebuilt
  cases draft with
  | none =>
      cases finished
      exact ⟨.kept, fun _ => rfl, fun _ _ _ => rfl⟩
  | some draft =>
      obtain ⟨previous, rfl, clean⟩ := some draft rfl
      have code := previous?_eq_ok known
      obtain ⟨body, found⟩ := find_of_code code
      obtain ⟨before, a, after, split, others, named⟩ := Attribute.find_eq_some found
      obtain ⟨code', _, rest⟩ := bind_eq_ok.mp finished
      obtain ⟨attributes, replaced, last⟩ := bind_eq_ok.mp rest
      cases last
      dsimp only at split replaced code ⊢
      rw [split] at replaced
      have later : ∀ x ∈ before, ∃ s, x.name pool' = .ok s ∧ s ≠ AttributeKind.code.name := by
        intro x member
        obtain ⟨s, said, other⟩ := others x member
        exact ⟨s, keeps.text said, other⟩
      rw [replaceCode_eq_ok later (keeps.text named) replaced]
      refine ⟨.replaced split (fun x member same => ?_) named, fun none => ?_, fun other known some => ?_⟩
      · obtain ⟨s, said, other⟩ := others x member
        cases said.symm.trans same
        exact other rfl
      · exact absurd named (none a (split ▸ List.mem_append_right _ List.mem_cons_self))
      · cases code.symm.trans known
        exact absurd clean some

end Reassembly

theorem ClassFile.reassemble_eq_ok {f g : ClassFile} {settings : Reassembly.Settings}
    {warnings : List Warning} (done : f.reassemble settings = (.ok g, warnings)) :
    ∃ c starts p outs, Reassembly.prepare settings f = .ok (c, starts) ∧
      Reassembly.rebuildAll c #[] 0 starts ⟨f.pool, #[]⟩ = (.ok outs, p) ∧
      Reassembly.finish f p.pool outs = .ok g := by
  unfold reassemble at done
  split at done
  · cases done
  · rename_i prepared
    split at done
    · cases done
    · rename_i rebuilt
      exact ⟨_, _, _, _, prepared, rebuilt, (Prod.mk.inj done).1⟩

/-- Assembling a class again changes nothing but bodies of methods: an index stands for what it
stood for, and a method without a body, or with a report about its body, stays as it is. -/
theorem ClassFile.reassemble_frame {bytes : Bytes} {f g : ClassFile}
    {settings : Reassembly.Settings} {warnings : List Warning} (parsed : parse bytes = .ok f)
    (done : f.reassemble settings = (.ok g, warnings)) :
    g = { f with pool := g.pool, methods := g.methods } ∧
    List.Forall₂ (Reassembly.Frame f.pool) f.methods g.methods ∧
    ∀ index ref, f.pool.entryAt index = .ok ref → g.pool.entryAt index = .ok ref ∧
      (∃ c, f.pool.get ref = .ok c ∧ g.pool.get ref = .ok c) ∧
      ∃ c, f.pool.raw ref = .ok c ∧ g.pool.raw ref = .ok c := by
  obtain ⟨_, _, _, _, _, _, ⟨raw, linked, spelled, links, assigned⟩, _⟩ := parse_eq_ok.mp parsed
  obtain ⟨c, starts, p, outs, prepared, rebuilt, finished⟩ := reassemble_eq_ok done
  obtain ⟨pool, assigned', methods, each, rfl⟩ := Reassembly.finish_eq_ok finished
  obtain ⟨grown, rest, made, all⟩ := Reassembly.rebuildAll_eq_ok rebuilt
  rw [Array.toList_empty, List.nil_append] at made
  subst made
  have keeps : f.pool.Keeps pool := Pool.keeps_of_assign assigned
    (grown.trans (Pool.extends_of_interned (Interning.interns_text _ p.pool))) assigned'
  refine ⟨rfl, ?_, fun index ref found => ⟨keeps.entry found, ?_⟩⟩
  · have steps := forall₂_exists.mpr ⟨_, Reassembly.prepare_eq_ok prepared,
      forall₂_exists.mpr ⟨_, all, each⟩⟩
    refine steps.imp fun m m' step => ?_
    obtain ⟨start, known, out, one, last⟩ := step
    exact Reassembly.frame_of_finish keeps known one last
  · obtain ⟨c', read⟩ := (Pool.holds_of_link spelled.1 links assigned).exists_raw spelled.1 found
    obtain ⟨c, entry, _⟩ := Pool.raw_eq_ok.mp read
    have got : f.pool.get ref = .ok c := Pool.get_eq_ok.mpr entry
    exact ⟨⟨c, got, keeps.constant got⟩, c', read, keeps.raw read⟩

namespace Reassembly

/-- A class with two methods without parameters. The first one has a body that can be built anew,
the other one a body that cannot be disassembled. -/
def mixed : Bytes :=
  [0xCA, 0xFE, 0xBA, 0xBE, 0, 0, 0, 52, 0, 6, 7, 0, 2, 1, 0, 1, 0x41, 1, 0, 1, 0x6D,
    1, 0, 3, 0x28, 0x29, 0x56, 1, 0, 4, 0x43, 0x6F, 0x64, 0x65,
    0, 0x21, 0, 1, 0, 0, 0, 0, 0, 0, 0, 2,
    0, 9, 0, 3, 0, 4, 0, 1, 0, 5, 0, 0, 0, 14, 0, 1, 0, 1, 0, 0, 0, 2, 0, 0xB1, 0, 0, 0, 0,
    0, 9, 0, 3, 0, 4, 0, 1, 0, 5, 0, 0, 0, 13, 0, 0, 0, 0, 0, 0, 0, 1, 0xCA, 0, 0, 0, 0,
    0, 0]

def method (info : Bytes) : MethodInfo := ⟨.ofBits 9, 3, 4, [⟨5, info⟩]⟩

def leaving : MethodInfo := method [0, 1, 0, 1, 0, 0, 0, 2, 0, 0xB1, 0, 0, 0, 0]

def stuck : MethodInfo := method [0, 0, 0, 0, 0, 0, 0, 1, 0xCA, 0, 0, 0, 0]

def body (name : String) (code : Bytes) : Body := ⟨name, ⟨[], none⟩, true, code, [], []⟩

theorem static_method (info : Bytes) : (method info).flags.hasAny MethodFlag.static = true := by
  change (AccessFlags.ofBits 9 : AccessFlags .method).hasAny MethodFlag.static = true
  decide

theorem prepare_mixed : ∃ f c, ClassFile.parse mixed = .ok f ∧
    f.pool.assign .preserve = .ok f.pool ∧
    f.pool.entries[4]? = some (.utf8 AttributeKind.code.name) ∧
    f.pool.textAt 5 = .ok AttributeKind.code.name ∧ c.settings.strict = false ∧
    prepare .standard f = .ok (c, [(leaving, some ⟨"()V", ⟨1, 1, [0, 0xB1], [], []⟩, []⟩),
      (stuck, some ⟨"()V", ⟨0, 0, [0xCA], [], []⟩, []⟩)]) :=
  ⟨_, ⟨_, _, _⟩, rfl, rfl, rfl, rfl, rfl, rfl⟩

theorem descriptor_mixed : MethodDescriptor.ofText "()V" = .ok ⟨[], none⟩ := by
  decide +kernel

theorem disassemble_leaving (name : String) (k : Constants)
    (typeOf : Local → Except Fault FieldType) :
    (body name [0, 0xB1]).disassemble k typeOf [] (none : Option Label) =
      ⟨[.nop, .returnValue none], none, [], []⟩ := by
  have listing : Listing.decode [0, 0xB1] =
      ⟨[⟨0, 1, .simple 0⟩, ⟨1, 2, .simple 177⟩], []⟩ := by decide +kernel
  simp only [Body.disassemble, body, listing, SlotMap.bind]
  cbv

theorem disassemble_stuck (name : String) (k : Constants)
    (typeOf : Local → Except Fault FieldType) :
    (body name [0xCA]).disassemble k typeOf [] (none : Option Label) =
      ⟨[], none, [⟨0, 0xCA⟩], []⟩ := by
  have listing : Listing.decode [0xCA] = ⟨[⟨0, 1, .unsupported⟩], [⟨0, 0xCA⟩]⟩ := by
    decide +kernel
  simp only [Body.disassemble, body, listing, SlotMap.bind]
  cbv

theorem copy_of_disassemble {b : Body} {c : Context} {builder builder' : Builder} {p : Progress}
    {ops : List (Op (Handle Label) (Handle Local))} {reports : List Report}
    (script : ∀ k typeOf, b.disassemble k typeOf builder.arguments (none : Option Label) =
      ⟨ops, none, reports, []⟩)
    (ran : ∀ pool, Emit.run .empty ops ⟨pool, builder⟩ = (.ok (), ⟨pool, builder'⟩)) :
    copy b c builder p = (.ok (⟨none, reports, []⟩, builder'.draft), p) := by
  obtain ⟨pool, warnings⟩ := p
  simp only [copy, Body.copyInto, Option.getD_none, script, ran]

/-- The first body, built anew. -/
def rebuilt (name : BinaryName) : Draft :=
  (Emit.run .empty [.nop, .returnValue none]
    ⟨.empty, Builder.initial 0 name ⟨[], none⟩ true⟩).2.builder.draft

theorem resolve_rebuilt (name : BinaryName) (pool : Pool) :
    ∃ d', (rebuilt name).resolve pool = (.ok ⟨0, 0, [0, 0xB1], [], [], []⟩, d') := by
  obtain ⟨d', resolved, -⟩ : ∃ d', (rebuilt name).resolve pool =
      (.ok ⟨0, 0, [0, 0xB1], [], [], []⟩, d') ∧ () = () :=
    Draft.exists_resolve_of_within (n := 9) (fun _ => ()) (by cbv)
  exact ⟨d', resolved⟩

theorem rebuildAll_mixed {c : Context} (strict : c.settings.strict = false) (p : Progress) :
    ∃ p', rebuildAll c #[] 0 [(leaving, some ⟨"()V", ⟨1, 1, [0, 0xB1], [], []⟩, []⟩),
        (stuck, some ⟨"()V", ⟨0, 0, [0xCA], [], []⟩, []⟩)] p =
        (.ok [(leaving, some (rebuilt c.name)), (stuck, none)], p') ∧ p'.pool = p.pool := by
  have descriptor : lift (MethodDescriptor.ofText "()V") p = (.ok ⟨[], none⟩, p) :=
    congrArg (·, p) descriptor_mixed
  have created : ∀ id, lift (Builder.create id c.name ⟨[], none⟩ true) p =
      (.ok (Builder.initial id c.name ⟨[], none⟩ true), p) :=
    fun id => congrArg (·, p) (Builder.create_eq_ok.mpr ⟨by decide, rfl⟩)
  have first : copy (body c.name.text [0, 0xB1]) c (Builder.initial 0 c.name ⟨[], none⟩ true) p =
      (.ok (⟨none, [], []⟩, rebuilt c.name), p) :=
    copy_of_disassemble (disassemble_leaving c.name.text) fun _ => rfl
  have second : copy (body c.name.text [0xCA]) c (Builder.initial 1 c.name ⟨[], none⟩ true) p =
      (.ok (⟨none, [⟨0, 0xCA⟩], []⟩, (Builder.initial 1 c.name ⟨[], none⟩ true).draft), p) :=
    copy_of_disassemble (disassemble_stuck c.name.text) fun _ => rfl
  simp only [rebuildAll, rebuild, leaving, stuck, static_method, strict]
  refine ⟨⟨p.pool, p.warnings.push (keptBody p.pool stuck ⟨0, 0xCA⟩)⟩,
    run_bind_eq_ok.mpr ⟨_, p, ?_, run_bind_eq_ok.mpr ⟨_, _, ?_, rfl⟩⟩, rfl⟩
  · exact run_bind_eq_ok.mpr ⟨_, p, descriptor, run_bind_eq_ok.mpr ⟨_, p, created 0,
      run_bind_eq_ok.mpr ⟨_, p, first, rfl⟩⟩⟩
  · exact run_bind_eq_ok.mpr ⟨_, p, descriptor, run_bind_eq_ok.mpr ⟨_, p, created 1,
      run_bind_eq_ok.mpr ⟨_, p, second, rfl⟩⟩⟩

end Reassembly

open Reassembly in
theorem ClassFile.reassemble_frame_mixed : ∃ f g warnings, parse mixed = .ok f ∧
    f.reassemble .standard = (.ok g, warnings) ∧
    List.Forall₂ (Frame f.pool) f.methods g.methods := by
  obtain ⟨f, c, parsed, assigned, entry, text, strict, prepared⟩ := prepare_mixed
  obtain ⟨p, rebuilt, pool⟩ := rebuildAll_mixed strict ⟨f.pool, #[]⟩
  obtain ⟨_, _, _, _, _, _, spelled, _⟩ := parse_eq_ok.mp parsed
  obtain ⟨ref, found⟩ := spelled.coherent.known (Array.mem_of_getElem? entry)
  have interned : (Interning.text AttributeKind.code.name p.pool).2 = f.pool := by
    rw [pool]
    change (f.pool.intern _).2 = _
    rw [Pool.intern, found]
  obtain ⟨index, known⟩ : ∃ index, f.pool.indexOf ref = .ok index :=
    (Pool.numbered_of_assign assigned).exists_index
      (Array.getElem?_eq_some_iff.mp (spelled.coherent.entry found)).1
  obtain ⟨d', resolved⟩ := resolve_rebuilt c.name f.pool
  have name : f.pool.indexOfText AttributeKind.code.name = .ok index := by
    rw [Pool.indexOfText, Pool.indexOfConstant, found]
    exact known
  obtain ⟨code, body⟩ : ∃ code, MethodDraft.finishBody f.pool (Reassembly.rebuilt c.name) =
      .ok code :=
    ⟨_, bind_eq_ok.mpr ⟨_, congrArg Prod.fst resolved,
      bind_eq_ok.mpr ⟨_, rfl, bind_eq_ok.mpr ⟨_, name, rfl⟩⟩⟩⟩
  obtain ⟨m, made⟩ : ∃ m, finishMethod f.pool (leaving, some (Reassembly.rebuilt c.name)) =
      .ok m :=
    ⟨_, bind_eq_ok.mpr ⟨_, body, bind_eq_ok.mpr ⟨_, bind_eq_ok.mpr ⟨_, text, rfl⟩, rfl⟩⟩⟩
  obtain ⟨g, finished⟩ : ∃ g, finish f p.pool
      [(leaving, some (Reassembly.rebuilt c.name)), (stuck, none)] = .ok g :=
    ⟨_, bind_eq_ok.mpr ⟨f.pool, interned ▸ assigned, bind_eq_ok.mpr
      ⟨[m, stuck], mapM_eq_ok.mpr (.cons made (.cons rfl .nil)), rfl⟩⟩⟩
  have done : f.reassemble .standard = (.ok g, p.warnings.toList) := by
    simp only [reassemble, prepared, rebuilt, finished]
  exact ⟨f, g, _, parsed, done, (reassemble_frame parsed done).2.1⟩

end JvmAssembly
