import StackEffect.Proofs.CheckFaults
import StackEffect.Proofs.Locations

/-! # Lines of a rendered report

The plain form of a rejection has one line for the rejection and one for each note, if no message
has a line break. Words have none, and they are all that messages quote of a text, except for the
message about text at which reading stops: this quotes the text as it stands, and string literals
may run over many lines.
-/

namespace StackEffect

/-- The words of a text have no line breaks. -/
theorem TokenStream.word_oneLine {file source : String} {s : TokenStream}
    (hs : ofSource file source = .ok s) :
    ∀ t ∈ s.tokens, ∀ w, t.kind = .word w → OneLine w := by
  intro t ht w hw
  obtain ⟨after, htext, hquote, _⟩ := exists_word hs ht hw
  unfold OneLine
  generalize w.toList = cs at htext hquote ⊢
  cases htext with
  | colon => simp
  | literal => simp at hquote
  | run hne hrun =>
    intro hline
    have hbreak := hrun _ hline
    revert hbreak
    decide

/-! ## Operations that name members -/

theorem Value.memberName?_of_pushes (v : Value) : ∀ kind ∈ v.pushes, kind.memberName? = none := by
  unfold pushes
  split <;> simp [OpKind.memberName?]

namespace Access

theorem memberName?_scalarOp (access : Access) (ref : Ref) (ty : Ty) :
    (access.scalarOp ref ty).memberName? = none := by
  cases access <;> rfl

theorem memberName?_of_structOps (access : Access) (scope : Scope) (v : Aggregate)
    (members : List Member) : ∀ kind ∈ access.structOps scope v members,
      kind.memberName? = none := by
  intro kind hkind
  cases access with
  | load | store | addr =>
    obtain ⟨_, _, rfl⟩ := List.mem_map.mp hkind
    rfl

end Access

theorem oneLine_of_memberWord? {text name : String} {access : MemberAccess}
    (h : memberWord? text = some (access, name)) (htext : OneLine text) : OneLine name := by
  cases hrest : stripSigil? '.' text with
  | none => simp [memberWord?, hrest] at h
  | some rest =>
    have hline := oneLine_of_stripSigil? hrest htext
    cases hstar : stripSigil? '*' rest with
    | none =>
      have hname : rest = name := by
        simp only [memberWord?, hrest, hstar] at h
        split at h <;> simp_all
      exact hname ▸ hline
    | some member =>
      have hname : member = name := by
        simp only [memberWord?, hrest, hstar] at h
        split at h <;> simp_all
      exact hname ▸ oneLine_of_stripSigil? hstar hline

namespace Resolution

variable {r r' : Resolution} {eof loc : Location} {t : Token} {ts rest : List Token} {used : Nat}
  {text : String} {m : Meaning}

/-- The member that a word asks for is named in one line if the word is one line. -/
theorem oneLine_of_lookup (htext : OneLine text) (hm : r.lookup text loc = .ok (some m)) :
    ∀ kind ∈ m.ops, ∀ name ∈ kind.memberName?, OneLine name := by
  have hnone {ops : List OpKind} (h : ∀ kind ∈ ops, kind.memberName? = none) :
      ∀ kind ∈ ops, ∀ name ∈ kind.memberName?, OneLine name := by
    intro kind hkind name hname
    rw [h kind hkind] at hname
    cases hname
  cases means_of_lookup hm with
  | structConst =>
    refine hnone fun kind hkind => ?_
    obtain ⟨v, _, hkind⟩ := List.mem_flatMap.mp hkind
    exact v.memberName?_of_pushes kind hkind
  | member hword => simpa [OpKind.memberName?] using oneLine_of_memberWord? hword htext
  | binding | primitive | cast | region | call => exact hnone (by simp [OpKind.memberName?])
  | @const i c => exact hnone c.value.memberName?_of_pushes
  | structVar => exact hnone (Access.memberName?_of_structOps _ _ _ _)
  | var => exact hnone (List.forall_mem_singleton.mpr (Access.memberName?_scalarOp _ _ _))

/-- The operations emitted so far name members in one line. -/
def NamesLines (r : Resolution) : Prop :=
  ∀ op ∈ r.code.ops, ∀ name ∈ op.kind.memberName?, OneLine name

theorem NamesLines.snoc (hr : r.NamesLines) {kind : OpKind} (hkind : kind.memberName? = none)
    (loc : Location) :
    ∀ op ∈ r.code.ops ++ [⟨kind, loc⟩], ∀ name ∈ op.kind.memberName?, OneLine name := by
  refine List.forall_mem_append.mpr ⟨hr, List.forall_mem_singleton.mpr ?_⟩
  simp [hkind]

theorem Move.namesLines (h : Move eof r t rest r' used)
    (ht : ∀ w, t.kind = .word w → OneLine w) (hr : r.NamesLines) : r'.NamesLines := by
  cases h with
  | @literal v id p hv hp =>
    refine List.forall_mem_append.mpr ⟨hr, List.forall_mem_map.mpr fun kind hkind => ?_⟩
    simp [v.memberName?_of_pushes kind hkind]
  | @word text m htext hm =>
    refine List.forall_mem_append.mpr ⟨hr, List.forall_mem_map.mpr fun kind hkind => ?_⟩
    exact oneLine_of_lookup (ht text htext) hm kind hkind
  | string | openIf | openElse | openLet | closeIf | closeElse | closeLet | closeProc =>
    exact hr.snoc rfl t.loc
  | declare _ _ _ _ hproc hdeclare =>
    have hcode := (declareShape_adds hproc hdeclare).code
    rw [NamesLines, hcode]
    exact hr
  | declareProc _ _ _ _ hdeclare =>
    obtain ⟨_, p, _, _, _, _, _, rfl⟩ := declareProc_eq_ok hdeclare
    exact hr.snoc rfl t.loc

theorem Reaches.namesLines (h : Reaches eof {} ts r rest)
    (hwords : ∀ t ∈ ts, ∀ w, t.kind = .word w → OneLine w) : r.NamesLines := by
  induction h with
  | start => simp [NamesLines]
  | step h hstep ih =>
    exact (step_move hstep).namesLines (hwords _ (h.suffix.subset List.mem_cons_self)) ih

end Resolution

/-! ## Rejections -/

structure Fault.QuotesLines (f : Fault) : Prop where
  cause : ∀ text ∈ f.cause.texts, OneLine text
  notes : ∀ n ∈ f.notes, ∀ text ∈ n.remark.texts, OneLine text

@[simp] theorem Cause.quotesLines_fault {c : Cause} {loc : Location} :
    (c.fault loc).QuotesLines ↔ ∀ text ∈ c.texts, OneLine text :=
  ⟨fun h => h.cause, fun h => ⟨h, by simp [Cause.fault]⟩⟩

/-- A rejection quotes texts of one line, unless it is about text at which reading stops. -/
theorem Checked.ofSource_quotes {file source : String} {f : Fault}
    (h : Checked.ofSource file source = .error f) :
    f.QuotesLines ∨ ∃ text loc, f = (Cause.unexpectedInput text).fault loc := by
  cases hs : TokenStream.ofSource file source with
  | error e =>
    obtain ⟨l, _, rfl⟩ := TokenStream.ofSource_eq_error_iff.mp hs
    rw [Checked.ofSource_eq_error hs] at h
    cases h
    exact .inr ⟨_, _, rfl⟩
  | ok s =>
    left
    have hwords := TokenStream.word_oneLine hs
    have hprogram : Program.ofSource file source = Program.ofTokens s := by
      rw [Program.ofSource, hs, ok_bind]
    have hchecks :
        Faults (Fault.Within (fun _ => True) OneLine) (Checked.ofSource file source) := by
      have htokens : ∀ t ∈ s.tokens, t.Within (fun _ => True) OneLine := fun t ht =>
        ⟨trivial, hwords t ht⟩
      have hresolves : Faults (Fault.Within (fun _ => True) OneLine) (Program.ofTokens s) :=
        fun e he => (Program.ofTokens_faults quotable_oneLine trivial htokens e he).toWithin
      rw [Checked.ofSource, hprogram]
      refine hresolves.bind fun p hp => ?_
      obtain ⟨s', r, hs', hr, _, rfl⟩ := Program.exists_reaches (hprogram.trans hp)
      obtain rfl : s = s' := Except.ok.inj (hs.symm.trans hs')
      have hsym := hr.allNames quotable_oneLine.dotted hwords
      have hrun : Faults (Fault.Within (fun _ => True) OneLine)
          (CheckState.run r.symbols {} 0 r.code.ops).2 :=
        CheckState.run_within quotable_oneLine hsym (fun _ _ => trivial) (hr.namesLines hwords) 0
      exact Faults.map (hrun.bind fun last _ => last.finish_within hsym fun _ _ => trivial) _
    exact ⟨(hchecks f h).cause, (hchecks f h).notes⟩

/-! ## Rendering -/

def Fault.lines (file : String) (f : Fault) : List String :=
  s!"{file}:{f.loc.line}:{f.loc.col}: [ERROR] {f.cause.message}" ::
    f.notes.map fun n => s!"{file}:{n.loc.line}:{n.loc.col}: [INFO] {n.remark.message}"

theorem length_splitOn {α : Type} [DecidableEq α] (x : α) (xs : List α) :
    (xs.splitOn x).length = 1 + xs.count x := by
  unfold List.splitOn
  induction xs with
  | nil => rfl
  | cons a xs ih =>
    rw [List.splitOnP_cons_eq_if_modifyHead, List.count_cons]
    by_cases ha : a = x
    · simp [ha, ih, Nat.add_comm]
    · simp [ha, ih]

namespace Fault

variable {file : String} {f : Fault}

/-- The plain form of a rejection in one file is made of its lines. -/
theorem render_eq (hplaces : ∀ loc ∈ f.places, loc.file = file) :
    f.report.render = "\n".intercalate (f.lines file) := by
  have hfirst : f.loc.file = file := hplaces _ List.mem_cons_self
  have hnotes : f.report.notes.map Report.noteLine = (f.lines file).tail := by
    simp only [report, lines, List.tail_cons, List.map_map]
    apply List.map_congr_left
    intro n hn
    have hfile : n.loc.file = file := hplaces _ (List.mem_cons_of_mem _ (List.mem_map_of_mem hn))
    simp only [Function.comp_apply, Report.noteLine, Location.text, hfile]
    rfl
  have hhead : f.report.headline =
      s!"{file}:{f.loc.line}:{f.loc.col}: [ERROR] {f.cause.message}" := by
    simp only [Report.headline, report, Location.text, hfirst]
    rfl
  rw [Report.render, hnotes, hhead]
  rfl

theorem oneLine_of_lines (hfile : OneLine file) (hf : f.QuotesLines) :
    ∀ line ∈ f.lines file, OneLine line := by
  have hcause := Cause.oneLine_message hf.cause
  refine List.forall_mem_cons.mpr ⟨?_, ?_⟩
  · simp only [oneLine_append, oneLine_toString, oneLine_word, hfile, hcause, and_true, true_and]
    and_intros <;> exact oneLine_ofList (by decide)
  · intro line hline
    obtain ⟨n, hn, rfl⟩ := List.mem_map.mp hline
    have hremark := Remark.oneLine_message (hf.notes n hn)
    simp only [oneLine_append, oneLine_toString, oneLine_word, hfile, hremark, and_true, true_and]
    and_intros <;> exact oneLine_ofList (by decide)

theorem splitOn_render (hplaces : ∀ loc ∈ f.places, loc.file = file)
    (hlines : ∀ line ∈ f.lines file, OneLine line) :
    f.report.render.toList.splitOn '\n' = (f.lines file).map String.toList := by
  rw [render_eq hplaces, String.toList_intercalate]
  apply List.splitOn_intercalate
  · intro l hl
    obtain ⟨line, hline, rfl⟩ := List.mem_map.mp hl
    exact hlines line hline
  · simp [lines]

/-- Text that is quoted as it stands brings its line breaks along. -/
theorem length_splitOn_unexpected (hfile : OneLine file) {text : String} {loc : Location}
    (hloc : loc.file = file) :
    (((Cause.unexpectedInput text).fault loc).report.render.toList.splitOn '\n').length =
      1 + text.toList.count '\n' := by
  have hplaces : ∀ l ∈ ((Cause.unexpectedInput text).fault loc).places, l.file = file := by
    intro l hl
    rw [List.mem_singleton.mp hl]
    exact hloc
  obtain ⟨place, hplace, hrender⟩ : ∃ place, OneLine place ∧
      ((Cause.unexpectedInput text).fault loc).report.render =
        place ++ ("unexpected input `" ++ text ++ "`") := by
    refine ⟨s!"{file}:{loc.line}:{loc.col}: [ERROR] ", ?_, ?_⟩
    · simp only [oneLine_append, oneLine_toString, oneLine_word, hfile, and_true, true_and]
      and_intros <;> exact oneLine_ofList (by decide)
    · rw [render_eq hplaces]
      rfl
  have hfront : OneLine "unexpected input `" := oneLine_ofList (by decide)
  have hback : OneLine "`" := oneLine_ofList (by decide)
  rw [length_splitOn, hrender, String.toList_append, String.toList_append, String.toList_append,
    List.count_append, List.count_append, List.count_append, List.count_eq_zero.mpr hplace,
    List.count_eq_zero.mpr hfront, List.count_eq_zero.mpr hback, Nat.zero_add, Nat.zero_add,
    Nat.add_zero]

end Fault

/-- A rejection is found by computing it. -/
theorem exists_error {α : Type} {x : Except Fault α} {P : Fault → Prop} [DecidablePred P]
    (h : (match x with
      | .ok _ => false
      | .error f => decide (P f)) = true) : ∃ f, x = .error f ∧ P f := by
  cases x with
  | ok a => cases h
  | error f => exact ⟨f, rfl, of_decide_eq_true h⟩

/-- The plain form of a rejection has one line for its message and one for each note, if and only if
it is not about text with line breaks at which reading stops. In this case there are no notes, and
each line break of the text starts another line. -/
theorem reports_are_lines {file source : String} {f : Fault} (hfile : OneLine file)
    (h : Checked.ofSource file source = .error f) :
    (f.report.render.toList.splitOn '\n' = (f.lines file).map String.toList ↔
      ∀ text, f.cause = .unexpectedInput text → OneLine text) ∧
    ∀ text, f.cause = .unexpectedInput text → ¬ OneLine text →
      f.notes = [] ∧
      (f.report.render.toList.splitOn '\n').length = 1 + text.toList.count '\n' := by
  have hplaces : ∀ loc ∈ f.places, loc.file = file := by
    have hall := outcomePlaces_isReal file source
    rw [h] at hall
    exact fun loc hloc => (hall loc hloc).file_eq
  have hbroken : ∀ text, f.cause = .unexpectedInput text → ¬ OneLine text →
      f.notes = [] ∧
      (f.report.render.toList.splitOn '\n').length = 1 + text.toList.count '\n' := by
    intro text hcause htext
    rcases Checked.ofSource_quotes h with hf | ⟨_, loc, rfl⟩
    · have hquoted := hf.cause
      rw [hcause] at hquoted
      exact absurd (hquoted text List.mem_cons_self) htext
    · cases hcause
      exact ⟨rfl, Fault.length_splitOn_unexpected hfile (hplaces loc List.mem_cons_self)⟩
  refine ⟨⟨?_, ?_⟩, hbroken⟩
  · intro hlines text hcause
    by_contra htext
    obtain ⟨hnotes, hlength⟩ := hbroken text hcause htext
    have hcount : 0 < text.toList.count '\n' := List.count_pos_iff.mpr (not_not.mp htext)
    simp [hlines, Fault.lines, hnotes] at hlength
    omega
  · intro htext
    rcases Checked.ofSource_quotes h with hf | ⟨text, loc, rfl⟩
    · exact Fault.splitOn_render hplaces (Fault.oneLine_of_lines hfile hf)
    · have hf : ((Cause.unexpectedInput text).fault loc).QuotesLines := by
        simpa [Cause.texts] using htext text rfl
      exact Fault.splitOn_render hplaces (Fault.oneLine_of_lines hfile hf)

def mixedSum : String :=
  "f :: 1 true + end"

theorem mixed_sum_is_reported_in_lines : ∃ f, Checked.ofSource "f" mixedSum = .error f ∧
    OneLine "f" ∧ f.notes.length = 2 ∧
    f.report.render.toList.splitOn '\n' = (f.lines "f").map String.toList := by
  have hfile : OneLine "f" := oneLine_ofList (by decide)
  obtain ⟨f, hf, hnotes, hcause⟩ := exists_error (x := Checked.ofSource "f" mixedSum)
    (P := fun f => f.notes.length = 2 ∧ f.cause = .operandsDiffer "`+`" "int" "bool")
    (by decide +kernel)
  refine ⟨f, hf, hfile, hnotes, (reports_are_lines hfile hf).1.mpr fun text htext => ?_⟩
  rw [hcause] at htext
  cases htext

def brokenLiteral : String :=
  "f :: \"a\nb"

/-- The report about a literal that runs over two lines has two lines, and no notes. -/
theorem broken_literal_breaks_its_line : ∃ f, Checked.ofSource "f" brokenLiteral = .error f ∧
    f.notes = [] ∧ (f.report.render.toList.splitOn '\n').length = 2 :=
  exists_error (by decide +kernel)

end StackEffect
