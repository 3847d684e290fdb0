import StackEffect.Diagnostic.Label
import StackEffect.Proofs.Placement
import StackEffect.Proofs.Tokens

/-! # The places that are reported

Whether a text is accepted or rejected, every place in the answer belongs to a token of the text, to
its end, or to the text at which reading stops. So it is a piece of the text between two characters,
and every label made for it can be shown.
-/

namespace StackEffect

/-! ## All places of an answer -/

def Memory.places (m : Memory) : List Location :=
  m.regions.map (·.loc)

def Procedure.places (p : Procedure) : List Location :=
  p.loc :: (p.locals.map (·.loc) ++ p.localStructs.map (·.loc) ++ p.memory.places)

def Symbols.places (s : Symbols) : List Location :=
  s.structs.map (·.loc) ++ s.consts.map (·.loc) ++ s.structConsts.map (·.loc) ++
    s.globals.map (·.loc) ++ s.globalStructs.map (·.loc) ++ s.memory.places ++
    s.procs.flatMap Procedure.places

def Checked.places (c : Checked) : List Location :=
  c.program.symbols.places ++ c.program.ops.map (·.loc)

def Fault.places (f : Fault) : List Location :=
  f.loc :: f.notes.map (·.loc)

def outcomePlaces : Except Fault Checked → List Location
  | .ok c => c.places
  | .error f => f.places

section Moved

variable (f : Location → Location)

theorem Memory.places_relocate (m : Memory) : (m.relocate f).places = m.places.map f := by
  simp only [places, relocate, List.map_map]
  rfl

theorem Procedure.places_relocate (p : Procedure) : (p.relocate f).places = p.places.map f := by
  simp only [places, relocate, Memory.places_relocate, List.map_map, List.map_cons,
    List.map_append]
  rfl

theorem Symbols.places_relocate (s : Symbols) : (s.relocate f).places = s.places.map f := by
  have hprocs : (s.procs.map (Procedure.relocate f)).flatMap Procedure.places =
      (s.procs.flatMap Procedure.places).map f := by
    rw [List.flatMap_map, List.map_flatMap]
    simp only [Procedure.places_relocate]
  simp only [places, relocate, hprocs, Memory.places_relocate, List.map_map, List.map_append]
  rfl

theorem Checked.places_relocate (c : Checked) : (c.relocate f).places = c.places.map f := by
  simp only [places, relocate, Program.relocate, Symbols.places_relocate, List.map_map,
    List.map_append]
  rfl

theorem Fault.places_relocate (e : Fault) : (e.relocate f).places = e.places.map f := by
  simp only [places, relocate, List.map_map, List.map_cons]
  rfl

theorem outcomePlaces_relocateBy (x : Except Fault Checked) :
    outcomePlaces (relocateBy f (Checked.relocate f) x) = (outcomePlaces x).map f := by
  cases x with
  | ok c => exact c.places_relocate f
  | error e => exact e.places_relocate f

end Moved

/-! ## Pieces of a text -/

/-- The spans that may be reported about a text: that of a token, the end of the text, and that of
the text at which reading stops. -/
inductive Span.Reported (file source : String) : Span → Prop
  | token {s : TokenStream} {t : Token} (hs : TokenStream.ofSource file source = .ok s)
      (ht : t ∈ s.tokens) : Reported file source t.loc.span
  | eof {s : TokenStream} (hs : TokenStream.ofSource file source = .ok s) :
      Reported file source ⟨source.utf8ByteSize, source.utf8ByteSize⟩
  | rejected {l : Lexeme} (hl : StopsAt source.toList l) : Reported file source ⟨l.start, l.stop⟩

/-- A span of a text starts and ends between two characters of it. -/
structure Span.Fits (source : String) (span : Span) : Prop where
  ordered : span.start ≤ span.stop
  inside : span.stop ≤ source.utf8ByteSize
  startsBetween : (⟨span.start⟩ : String.Pos.Raw).IsValid source
  stopsBetween : (⟨span.stop⟩ : String.Pos.Raw).IsValid source

theorem isValid_byteLength {source : String} {before after : List Char}
    (h : source.toList = before ++ after) :
    (⟨byteLength before⟩ : String.Pos.Raw).IsValid source := by
  apply String.Pos.Raw.isValid_iff_exists_append.mpr
  refine ⟨String.ofList before, String.ofList after, ?_, ?_⟩
  · rw [← String.ofList_append, ← h, String.ofList_toList]
  · rw [byteLength_ofList]
    rfl

theorem Lexeme.IsPiece.fits {source : String} {l : Lexeme} (h : l.IsPiece source.toList) :
    Span.Fits source ⟨l.start, l.stop⟩ := by
  obtain ⟨before, after, hsource, hstart⟩ := h
  have hstop : l.stop = byteLength (before ++ l.text) := by
    rw [l.stop_eq, hstart, byteLength_append]
  refine ⟨Nat.le_add_right _ _, ?_, ?_, ?_⟩
  · rw [← byteLength_toList, hsource, ← List.append_assoc, byteLength_append]
    exact hstop ▸ Nat.le_add_right _ _
  · rw [hstart]
    exact isValid_byteLength hsource
  · rw [hstop]
    exact isValid_byteLength (by rw [hsource, List.append_assoc])

theorem Span.Reported.fits {file source : String} {span : Span}
    (h : span.Reported file source) : span.Fits source := by
  cases h with
  | token hs ht =>
    obtain ⟨ls, hpartitions⟩ := TokenStream.ofSource_eq_ok_iff.mp hs
    obtain ⟨before, text, after, hsource, hspan, _⟩ := hpartitions.exists_piece _ ht
    have hpiece : Lexeme.IsPiece source.toList ⟨byteLength before, text⟩ :=
      ⟨before, after, hsource, rfl⟩
    rw [hspan, byteLength_append]
    exact hpiece.fits
  | eof =>
    have hend : (⟨byteLength source.toList⟩ : String.Pos.Raw).IsValid source :=
      isValid_byteLength (List.append_nil _).symm
    rw [byteLength_toList] at hend
    exact ⟨Nat.le_refl _, Nat.le_refl _, hend, hend⟩
  | rejected hl =>
    obtain ⟨before, after, hlexemes, _⟩ := stopsAt_iff.mp hl
    exact (isPiece_of_mem_lexemes (by simp [hlexemes])).fits

/-! ## Reported places -/

/-- A place that may be reported about a text. -/
structure Location.IsReal (file source : String) (loc : Location) : Prop where
  file_eq : loc.file = file
  located : loc = (LineIndex.ofSource file source).locate loc.span
  reported : loc.span.Reported file source
  fits : loc.span.Fits source

variable {file source : String}

theorem Span.Reported.isReal {span : Span} (h : span.Reported file source) :
    ((LineIndex.ofSource file source).locate span).IsReal file source := by
  constructor
  · exact LineIndex.file_locate _ _
  · rw [LineIndex.span_locate]
  · rwa [LineIndex.span_locate]
  · rw [LineIndex.span_locate]
    exact h.fits

/-- The places of the tokens and the end of the text are real. -/
theorem TokenStream.place_isReal {s : TokenStream} (hs : ofSource file source = .ok s) (i : Nat) :
    (s.place i).IsReal file source := by
  obtain ⟨ls, hpartitions⟩ := ofSource_eq_ok_iff.mp hs
  unfold place
  cases hi : s.tokens[i]? with
  | none =>
    rw [Option.elim_none, hpartitions.eof]
    exact (Span.Reported.eof hs).isReal
  | some t =>
    have ht := List.mem_of_getElem? hi
    obtain ⟨l, _, hstands⟩ := hpartitions.exists_lexeme ht
    have hspan : (⟨l.start, l.stop⟩ : Span) = t.loc.span := by
      rw [hstands.loc, LineIndex.span_locate]
    have hreal := (Span.Reported.token hs ht).isReal
    rw [← hspan, ← hstands.loc] at hreal
    exact hreal

theorem Checked.ofSource_eq_error {e : Fault} (h : TokenStream.ofSource file source = .error e) :
    Checked.ofSource file source = .error e := by
  rw [Checked.ofSource, Program.ofSource, h]
  rfl

theorem Checked.ofSource_of_stopsAt (file : String) {l : Lexeme} (h : StopsAt source.toList l) :
    Checked.ofSource file source =
      .error ((Cause.unexpectedInput (String.ofList l.text)).fault
        ((LineIndex.ofSource file source).locate ⟨l.start, l.stop⟩)) :=
  ofSource_eq_error (TokenStream.ofSource_eq_error_iff.mpr ⟨l, h, rfl⟩)

theorem outcomePlaces_isReal (file source : String) :
    ∀ loc ∈ outcomePlaces (Checked.ofSource file source), loc.IsReal file source := by
  intro loc hloc
  cases hs : TokenStream.ofSource file source with
  | error e =>
    obtain ⟨l, hl, rfl⟩ := TokenStream.ofSource_eq_error_iff.mp hs
    rw [Checked.ofSource_eq_error hs] at hloc
    obtain rfl := List.mem_singleton.mp hloc
    exact (Span.Reported.rejected hl).isReal
  | ok s =>
    rw [Checked.ofSource_eq_relocate hs, outcomePlaces_relocateBy] at hloc
    obtain ⟨l, _, rfl⟩ := List.mem_map.mp hloc
    exact TokenStream.place_isReal hs l.span.start

/-- In files among which the text is known, every place of a rejection is marked. -/
theorem Diagnostic.labels_ofReport {files : List SourceFile} {id : Nat} {f : Fault}
    (hfiles : Named.last? file files = some (id, ⟨file, source⟩))
    (hfault : ∀ loc ∈ f.places, loc.file = file) :
    (ofReport files f.report).labels =
      ⟨.primary, id, f.loc.span, f.cause.message⟩ ::
        f.notes.map fun n => ⟨.secondary, id, n.loc.span, n.remark.message⟩ := by
  have hlabel (style : LabelStyle) (loc : Location) (message : String) (hloc : loc ∈ f.places) :
      label? files style loc message = some ⟨style, id, loc.span, message⟩ := by
    rw [label?, hfault loc hloc, hfiles]
    rfl
  have hnotes : (f.report.notes.filterMap fun n => label? files .secondary n.loc n.message) =
      f.notes.map fun n => ⟨.secondary, id, n.loc.span, n.remark.message⟩ := by
    rw [Fault.report, List.filterMap_map, ← List.filterMap_eq_map]
    apply List.filterMap_congr
    intro n hn
    exact hlabel _ _ _ (List.mem_cons_of_mem _ (List.mem_map_of_mem hn))
  have hfirst := hlabel .primary f.loc f.report.message List.mem_cons_self
  have hloc : f.report.loc = some f.loc := rfl
  simp only [ofReport, hloc, hfirst, hnotes, Option.toList_some, List.singleton_append]
  rfl

/-- Every place in an answer has the name of the file and is the place of a token, of the end of the
text, or of the text at which reading stops; the latter only if nothing else is reported. So it
starts and ends between two characters, and every label for it lies in the text. -/
theorem reported_places_are_real (file source : String) :
    (∀ loc ∈ outcomePlaces (Checked.ofSource file source), loc.IsReal file source) ∧
    (∀ l, StopsAt source.toList l → Checked.ofSource file source =
      .error ((Cause.unexpectedInput (String.ofList l.text)).fault
        ((LineIndex.ofSource file source).locate ⟨l.start, l.stop⟩))) ∧
    ∀ f files id, Checked.ofSource file source = .error f →
      Named.last? file files = some (id, ⟨file, source⟩) →
      (Diagnostic.ofReport files f.report).labels.map (fun l => (l.file, l.span)) =
        f.places.map (fun loc => (id, loc.span)) ∧
      ∀ label ∈ (Diagnostic.ofReport files f.report).labels,
        label.file = id ∧ label.span.Fits source := by
  refine ⟨outcomePlaces_isReal file source, fun l hl => Checked.ofSource_of_stopsAt file hl, ?_⟩
  intro f files id hf hfiles
  have hreal : ∀ loc ∈ f.places, loc.IsReal file source := by
    have hall := outcomePlaces_isReal file source
    rwa [hf] at hall
  have hlabels : (Diagnostic.ofReport files f.report).labels.map (fun l => (l.file, l.span)) =
      f.places.map fun loc => (id, loc.span) := by
    rw [Diagnostic.labels_ofReport hfiles fun loc hloc => (hreal loc hloc).file_eq, List.map_cons,
      List.map_map, Fault.places, List.map_cons, List.map_map]
    rfl
  refine ⟨hlabels, fun label hlabel => ?_⟩
  have hmem := List.mem_map_of_mem (f := fun l => (l.file, l.span)) hlabel
  rw [hlabels] at hmem
  obtain ⟨loc, hloc, heq⟩ := List.mem_map.mp hmem
  obtain ⟨hid, hspan⟩ := Prod.mk.inj heq
  exact ⟨hid.symm, hspan ▸ (hreal loc hloc).fits⟩

end StackEffect
