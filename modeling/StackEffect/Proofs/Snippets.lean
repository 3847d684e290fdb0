import StackEffect.Diagnostic.Snippet
import StackEffect.Proofs.Lexing

/-! # What a snippet shows

However its labels overlap, a snippet shows the message of each, in one line. A label within a line
has its message behind the carets or hanging below them; a label over several lines has it at the
foot of its bar. The carets stand under the characters that they mark: in screen columns, what comes
before them is as wide as the text above it, with its tabs and wide characters. Changes of ink are
not seen.
-/

namespace StackEffect

/-- A line that a text is part of. -/
def Shows (line text : String) : Prop :=
  ∃ before after, line = before ++ text ++ after

section Showing

variable {line text : String}

theorem Shows.refl (text : String) : Shows text text :=
  ⟨"", "", by simp⟩

theorem shows_empty (line : String) : Shows line "" :=
  ⟨line, "", by simp⟩

theorem Shows.append_left (h : Shows line text) (front : String) : Shows (front ++ line) text := by
  obtain ⟨before, after, rfl⟩ := h
  exact ⟨front ++ before, after, by simp only [String.append_assoc]⟩

theorem Shows.append_right (h : Shows line text) (back : String) : Shows (line ++ back) text := by
  obtain ⟨before, after, rfl⟩ := h
  exact ⟨before, after ++ back, by simp only [String.append_assoc]⟩

theorem Shows.labelled (h : Shows line text) (style : LabelStyle) :
    Shows (Ink.labelled style line) text :=
  (h.append_left _).append_right _

end Showing

/-! ## Labels on lines -/

/-- A line that is shown and has a label or the foot of a bar with a message. -/
def MarkedLine.Tells (m : MarkedLine) (message : String) : Prop :=
  m.shown ∧ ((∃ l ∈ m.labels, l.message = message) ∨
    ∃ b ∈ m.bars, ∃ stop, b.part = .bottom stop message)

def Told (lines : List MarkedLine) (message : String) : Prop :=
  ∃ m ∈ lines, m.Tells message

section Marking

variable {starts : List Nat} {index : Nat} {f : MarkedLine → MarkedLine} {lines : List MarkedLine}
  {message : String}

theorem mem_insertLabel {l x : LineLabel} {labels : List LineLabel} :
    x ∈ MarkedLine.insertLabel l labels ↔ x = l ∨ x ∈ labels := by
  fun_induction MarkedLine.insertLabel l labels with
  | case1 => simp
  | case2 m ms _ ih => simp only [List.mem_cons, ih, or_left_comm]
  | case3 => simp

theorem exists_mem_update (index : Nat) (f : MarkedLine → MarkedLine) (lines : List MarkedLine) :
    ∃ m, f m ∈ MarkedLine.update index f lines := by
  fun_induction MarkedLine.update index f lines with
  | case1 | case2 | case3 => exact ⟨_, List.mem_cons_self⟩
  | case4 _ _ _ _ ih =>
    obtain ⟨m, hm⟩ := ih
    exact ⟨m, List.mem_cons_of_mem _ hm⟩

theorem Told.update (hf : ∀ m : MarkedLine, m.Tells message → (f m).Tells message)
    (h : Told lines message) : Told (MarkedLine.update index f lines) message := by
  obtain ⟨m, hm, htells⟩ := h
  fun_induction MarkedLine.update index f lines with
  | case1 => cases hm
  | case2 => exact ⟨m, List.mem_cons_of_mem _ hm, htells⟩
  | case3 =>
    obtain rfl | hm := List.mem_cons.mp hm
    · exact ⟨f m, List.mem_cons_self, hf m htells⟩
    · exact ⟨m, List.mem_cons_of_mem _ hm, htells⟩
  | case4 _ _ _ _ ih =>
    obtain rfl | hm := List.mem_cons.mp hm
    · exact ⟨m, List.mem_cons_self, htells⟩
    · obtain ⟨m', hm', htells'⟩ := ih hm
      exact ⟨m', List.mem_cons_of_mem _ hm', htells'⟩

theorem Told.addBar (bar : Bar) (shown : Bool) (h : Told lines message) :
    Told (MarkedLine.addBar index bar shown lines) message := by
  refine h.update fun m hm => ⟨by simp [hm.1], hm.2.imp_right ?_⟩
  rintro ⟨b, hb, hpart⟩
  exact ⟨b, List.mem_append_left _ hb, hpart⟩

theorem Told.foldl {α : Type} {step : List MarkedLine → α → List MarkedLine}
    (hstep : ∀ lines a, Told lines message → Told (step lines a) message) (as : List α)
    (h : Told lines message) : Told (as.foldl step lines) message := by
  induction as generalizing lines with
  | nil => exact h
  | cons a as ih => exact ih (hstep lines a h)

/-- Adding a label loses no message. -/
theorem Told.add {m : Marks} (l : Label) (h : Told m.lines message) :
    Told (m.add starts l).lines message := by
  unfold Marks.add
  dsimp only
  split
  · refine h.update fun line hline => ⟨rfl, hline.2.imp_left ?_⟩
    rintro ⟨label, hlabel, hmessage⟩
    exact ⟨label, mem_insertLabel.mpr (.inr hlabel), hmessage⟩
  · exact ((h.addBar _ _).foldl (fun _ _ hlines => hlines.addBar _ _) _).addBar _ _

theorem told_add (starts : List Nat) (m : Marks) (l : Label) :
    Told (m.add starts l).lines l.message := by
  unfold Marks.add
  dsimp only
  split
  · obtain ⟨line, hline⟩ := exists_mem_update _ _ m.lines
    exact ⟨_, hline, rfl, .inl ⟨_, mem_insertLabel.mpr (.inl rfl), rfl⟩⟩
  · obtain ⟨line, hline⟩ := exists_mem_update _ _ _
    exact ⟨_, hline, by simp, .inr ⟨_, List.mem_append_right _ List.mem_cons_self, _, rfl⟩⟩

/-- Each label of a file has its message on a line that is shown. -/
theorem told_ofLabels (starts : List Nat) {labels : List Label} {l : Label} (hl : l ∈ labels) :
    Told (Marks.ofLabels starts labels).lines l.message := by
  have hkept (later : List Label) (m : Marks) (h : Told m.lines l.message) :
      Told (later.foldl (Marks.add starts) m).lines l.message := by
    induction later generalizing m with
    | nil => exact h
    | cons next later ih => exact ih _ (h.add next)
  obtain ⟨before, after, rfl⟩ := List.append_of_mem hl
  rw [Marks.ofLabels, List.foldl_append, List.foldl_cons]
  exact hkept after _ (told_add starts _ l)

end Marking

/-! ## Messages -/

namespace Snippet

variable {labels : List LineLabel} {bars : List Bar} {message : String}

/-- A message that does not stand behind the carets hangs below them. -/
theorem trailing_or_hanging {l : LineLabel} (hl : l ∈ labels) (hmessage : l.message ≠ "") :
    (trailing? labels).bind (labels[·]?) = some l ∨ l ∈ hanging labels := by
  obtain ⟨i, hi⟩ := List.mem_iff_getElem?.mp hl
  by_cases htrailing : trailing? labels = some i
  · left
    rw [htrailing, Option.bind_some, hi]
  · right
    refine List.mem_map.mpr ⟨(l, i), List.mem_filter.mpr ⟨?_, ?_⟩, rfl⟩
    · exact List.mk_mem_zipIdx_iff_getElem?.mpr hi
    · simp [hmessage, htrailing]

theorem labelLines_show (lead : String) (line : List Char) {l : LineLabel} (hl : l ∈ labels) :
    ∃ shown ∈ labelLines lead labels line, Shows shown l.message := by
  have hsome : labels.isEmpty = false := List.isEmpty_eq_false_iff_exists_mem.mpr ⟨l, hl⟩
  simp only [labelLines, hsome, Bool.false_eq_true, if_false]
  by_cases hmessage : l.message = ""
  · rw [hmessage]
    exact ⟨_, List.mem_append_left _ List.mem_cons_self, shows_empty _⟩
  obtain htrailing | hhanging := trailing_or_hanging hl hmessage
  · refine ⟨_, List.mem_append_left _ List.mem_cons_self, ?_⟩
    rw [htrailing]
    exact (((Shows.refl _).labelled _).append_left _).append_left _
  · refine ⟨_, List.mem_append_right _ (List.mem_map_of_mem (List.mem_reverse.mpr hhanging)), ?_⟩
    exact ((Shows.refl _).labelled _).append_left _

theorem cornerLines_show (pad count : Nat) (line : List Char) {b : Bar} {stop : Nat} (hb : b ∈ bars)
    (hpart : b.part = .bottom stop message) :
    ∃ shown ∈ cornerLines pad count bars line, Shows shown message := by
  obtain ⟨i, hi⟩ := List.mem_iff_getElem?.mp hb
  refine ⟨gutter pad ++ border ++ cornerColumns count bars i ++ Ink.labelled b.style
      (repeated (totalWidth ((columns line).takeWhile (·.offset < stop))) "─" ++ barCaret b.style ++
        if message = "" then "" else " " ++ message),
    List.mem_filterMap.mpr ⟨(b, i), List.mk_mem_zipIdx_iff_getElem?.mpr hi, ?_⟩, ?_⟩
  · simp only [hpart]
  · refine (Shows.labelled (Shows.append_left ?_ _) _).append_left _
    split
    · rename_i hempty
      rw [hempty]
      exact shows_empty _
    · exact (Shows.refl _).append_left _

theorem sourceLines_show (pad count : Nat) {m : MarkedLine} (line : List Char)
    (h : m.Tells message) : ∃ shown ∈ sourceLines pad count m line, Shows shown message := by
  obtain ⟨-, ⟨l, hl, rfl⟩ | ⟨b, hb, stop, hpart⟩⟩ := h
  · obtain ⟨shown, hshown, hshows⟩ := labelLines_show
      (gutter pad ++ border ++ barColumns count m.bars ++ " ") (trimEnd line) hl
    exact ⟨shown, List.mem_append_left _ (List.mem_cons_of_mem _ hshown), hshows⟩
  · obtain ⟨shown, hshown, hshows⟩ := cornerLines_show pad count (trimEnd line) hb hpart
    exact ⟨shown, List.mem_append_right _ hshown, hshows⟩

theorem sourceLines_subset_bodyLines (pad : Nat) (marks : Marks) (lines : List (List Char))
    {m : MarkedLine} {ms : List MarkedLine} (hm : m ∈ ms) :
    sourceLines pad marks.bars m (lines.getD m.index []) ⊆ bodyLines pad marks lines ms := by
  induction ms with
  | nil => cases hm
  | cons first ms ih =>
    unfold bodyLines
    obtain rfl | hm := List.mem_cons.mp hm
    · exact List.subset_append_of_subset_left _ (List.subset_append_left _ _)
    · exact List.subset_append_of_subset_right _ (ih hm)

theorem fileLines_show (pad : Nat) (f : SourceFile) (closed : Bool) {labels : List Label}
    {l : Label} (hl : l ∈ labels) :
    ∃ shown ∈ fileLines pad f labels closed, Shows shown l.message := by
  obtain ⟨m, hm, htells⟩ := told_ofLabels (LineIndex.ofSource f.name f.text).starts hl
  obtain ⟨shown, hshown, hshows⟩ := sourceLines_show pad
    (Marks.ofLabels (LineIndex.ofSource f.name f.text).starts labels).bars
    ((splitLines f.text.toList).getD m.index []) htells
  have hbody := sourceLines_subset_bodyLines pad _ (splitLines f.text.toList)
    (List.mem_filter.mpr ⟨hm, htells.1⟩) hshown
  exact ⟨shown, List.mem_append_left _ (List.mem_append_right _ hbody), hshows⟩

end Snippet

/-- A snippet shows the message of every label in a known file and each line of every note. -/
theorem Diagnostic.snippets_show (files : List SourceFile) (d : Diagnostic) :
    (∀ l ∈ d.labels, l.file < files.length →
      ∃ shown ∈ snippets files d, Shows shown l.message) ∧
    ∀ note ∈ d.notes, ∀ line ∈ note.toList.splitOn '\n',
      ∃ shown ∈ snippets files d, Shows shown (String.ofList line) := by
  unfold snippets
  dsimp only
  constructor
  · intro l hl hfile
    have hid : l.file ∈ (d.labels.map (·.file)).eraseDups :=
      List.mem_eraseDups.mpr (List.mem_map_of_mem hl)
    obtain ⟨i, hi⟩ := List.mem_iff_getElem?.mp hid
    have hmarked : l ∈ d.labels.filter (·.file == l.file) := by simp [hl]
    obtain ⟨shown, hshown, hshows⟩ := Snippet.fileLines_show (Snippet.numberWidth files d.labels)
      files[l.file] (i + 1 < (d.labels.map (·.file)).eraseDups.length || !d.notes.isEmpty) hmarked
    refine ⟨shown, List.mem_append_left _ (List.mem_append_left _ (List.mem_cons_of_mem _ ?_)),
      hshows⟩
    refine List.mem_flatMap.mpr ⟨(l.file, i), List.mk_mem_zipIdx_iff_getElem?.mpr hi, ?_⟩
    rw [List.getElem?_eq_getElem hfile]
    exact hshown
  · intro note hnote line hline
    obtain ⟨i, hi⟩ := List.mem_iff_getElem?.mp hline
    refine ⟨_, List.mem_append_left _ (List.mem_append_right _ (List.mem_flatMap.mpr ⟨note, hnote,
      List.mem_map_of_mem (List.mk_mem_zipIdx_iff_getElem?.mpr hi)⟩)), ?_⟩
    exact (Shows.refl _).append_left _

/-! ## Ink -/

/-- What is seen of a text, in which an escape sequence may be under way. -/
def visibleFrom : Bool → List Char → List Char
  | _, [] => []
  | true, c :: cs => visibleFrom (c != 'm') cs
  | false, c :: cs => if c = '\x1b' then visibleFrom true cs else c :: visibleFrom false cs

def visible (text : String) : List Char :=
  visibleFrom false text.toList

theorem visibleFrom_append {cs : List Char} (hcs : '\x1b' ∉ cs) (rest : List Char) :
    visibleFrom false (cs ++ rest) = cs ++ visibleFrom false rest := by
  induction cs with
  | nil => rfl
  | cons c cs ih =>
    obtain ⟨hc, hcs⟩ : '\x1b' ≠ c ∧ '\x1b' ∉ cs := by simpa using hcs
    rw [List.cons_append, visibleFrom, if_neg (Ne.symm hc), ih hcs, List.cons_append]

/-- A change of ink is not seen. -/
theorem visibleFrom_ink (style : Option LabelStyle) (rest : List Char) :
    visibleFrom false ((style.elim Ink.plain Ink.ofLabel).toList ++ rest) =
      visibleFrom false rest := by
  obtain _ | _ | _ := style <;> rfl

/-- Whatever inks texts are written in, the texts are seen. -/
theorem visible_write {texts : List (Option LabelStyle × String)}
    (htexts : ∀ t ∈ texts, '\x1b' ∉ t.2.toList) :
    visible (Ink.write texts) = texts.flatMap (·.2.toList) := by
  have hfrom (before : Option LabelStyle) :
      visible (Ink.writeFrom before texts) = texts.flatMap (·.2.toList) := by
    induction texts generalizing before with
    | nil => obtain _ | _ | _ := before <;> rfl
    | cons t texts ih =>
      obtain ⟨ht, htexts⟩ := List.forall_mem_cons.mp htexts
      have hrest := ih htexts t.1
      unfold visible at hrest ⊢
      rw [Ink.writeFrom, String.toList_append, String.toList_append, List.flatMap_cons, ← hrest,
        List.append_assoc]
      split
      · exact visibleFrom_append ht _
      · rw [visibleFrom_ink, visibleFrom_append ht]
  exact hfrom none

/-! ## Carets -/

section Columns

variable {line : List Char}

def screenColumns : List Char → Nat
  | [] => 0
  | c :: cs => screenWidth c + screenColumns cs

theorem screenColumns_append (cs ds : List Char) :
    screenColumns (cs ++ ds) = screenColumns cs + screenColumns ds := by
  induction cs with
  | nil => simp [screenColumns]
  | cons c cs ih => rw [List.cons_append, screenColumns, ih, screenColumns, Nat.add_assoc]

theorem screenColumns_blanks (n : Nat) : screenColumns (List.replicate n ' ') = n := by
  induction n with
  | zero => rfl
  | succ n ih =>
    have hblank : screenWidth ' ' = 1 := by decide
    rw [List.replicate_succ, screenColumns, ih, hblank, Nat.add_comm]

namespace Column

/-- How a character of a line is written. -/
def shown (c : Column) : List Char :=
  if c.char = '\t' then List.replicate c.width ' ' else [c.char]

/-- What stands under a character: a caret if it belongs to the rejection, a dash if it only belongs
to what explains it. -/
def caret (labels : List LineLabel) (c : Column) : Char :=
  let covering := labels.filter fun l =>
    Snippet.overlap l.start l.stop c.offset (c.offset + c.char.utf8Size)
  if covering.any (·.style == .primary) then '^' else if covering.isEmpty then ' ' else '-'

end Column

theorem screenColumns_shown {offset column : Nat} {c : Column}
    (hc : c ∈ columnsFrom offset column line) : screenColumns c.shown = c.width := by
  induction line generalizing offset column with
  | nil => cases hc
  | cons d line ih =>
    obtain rfl | hc := List.mem_cons.mp hc
    · by_cases htab : d = '\t'
      · simp only [Column.shown, htab, if_true, screenColumns_blanks]
      · simp only [Column.shown, htab, if_false, screenColumns, Nat.add_zero]
    · exact ih hc

theorem length_flatMap_eq {ds : List Column} {marks : Column → List Char}
    (h : ∀ d ∈ ds, (marks d).length = screenColumns d.shown) :
    (ds.flatMap marks).length = screenColumns (ds.flatMap Column.shown) := by
  induction ds with
  | nil => rfl
  | cons d ds ih =>
    obtain ⟨hd, hds⟩ := List.forall_mem_cons.mp h
    rw [List.flatMap_cons, List.flatMap_cons, List.length_append, screenColumns_append, hd, ih hds]

theorem char_mem_of_mem_columnsFrom {offset column : Nat} {c : Column}
    (hc : c ∈ columnsFrom offset column line) : c.char ∈ line ∧ offset ≤ c.offset := by
  induction line generalizing offset column with
  | nil => cases hc
  | cons d line ih =>
    obtain rfl | hc := List.mem_cons.mp hc
    · exact ⟨List.mem_cons_self, Nat.le_refl _⟩
    · obtain ⟨hchar, hle⟩ := ih hc
      exact ⟨List.mem_cons_of_mem _ hchar, Nat.le_trans (Nat.le_add_right _ _) hle⟩

theorem pairwise_columnsFrom (offset column : Nat) (line : List Char) :
    (columnsFrom offset column line).Pairwise (·.offset ≤ ·.offset) := by
  induction line generalizing offset column with
  | nil => exact .nil
  | cons c line ih =>
    refine List.pairwise_cons.mpr ⟨fun d hd => ?_, ih _ _⟩
    exact Nat.le_trans (Nat.le_add_right _ _) (char_mem_of_mem_columnsFrom hd).2

end Columns

namespace Snippet

variable {labels : List LineLabel} {bars : List Bar} {line : List Char}

theorem toList_repeated (n : Nat) (text : String) :
    (repeated n text).toList = (List.replicate n text.toList).flatten := by
  rw [repeated, String.toList_join, List.flatMap_def, List.map_replicate]

theorem strongest_eq (labels : List LineLabel) :
    strongest labels =
      if labels.any (·.style == .primary) then some .primary
      else if labels.isEmpty then none else some .secondary := by
  have hfold (best : Option LabelStyle) (labels : List LineLabel) :
      labels.foldl (fun best l => stronger best l.style) best =
        if best = some .primary ∨ labels.any (·.style == .primary) then some .primary
        else if labels.isEmpty then best else some .secondary := by
    induction labels generalizing best with
    | nil => obtain _ | _ | _ := best <;> rfl
    | cons l labels ih =>
      rw [List.foldl_cons, ih]
      obtain _ | _ | _ := best <;> cases hl : l.style <;> simp [stronger, hl]
  rw [strongest, hfold]
  simp

/-- The widest reach of labels. -/
theorem stop_le_foldl_max {l : LineLabel} (hl : l ∈ labels) :
    l.stop ≤ labels.foldl (fun n l => max n l.stop) 0 := by
  have hfold (n : Nat) (labels : List LineLabel) :
      n ≤ labels.foldl (fun n l => max n l.stop) n := by
    induction labels generalizing n with
    | nil => exact Nat.le_refl n
    | cons l labels ih => exact Nat.le_trans (Nat.le_max_left _ _) (ih _)
  obtain ⟨before, after, rfl⟩ := List.append_of_mem hl
  rw [List.foldl_append, List.foldl_cons]
  exact Nat.le_trans (Nat.le_max_right _ _) (hfold _ after)

theorem visible_sourceText (hline : '\x1b' ∉ line) :
    visible (sourceText labels bars line) = (columns line).flatMap Column.shown := by
  have hshown (c : Column) : (if c.char = '\t' then repeated c.width " "
      else String.singleton c.char).toList = c.shown := by
    unfold Column.shown
    split
    · rw [toList_repeated]
      simp
    · simp
  rw [sourceText, visible_write]
  · simp only [List.flatMap_map, hshown]
  · intro t ht
    obtain ⟨c, hc, rfl⟩ := List.mem_map.mp ht
    have hchar := (char_mem_of_mem_columnsFrom hc).1
    rw [hshown, Column.shown]
    split
    · simp
    · rintro hescape
      rw [List.mem_singleton] at hescape
      exact hline (hescape ▸ hchar)

/-- Up to where the last label ends, each character has its marks below it. -/
theorem visible_carets (labels : List LineLabel) (line : List Char) :
    ∃ (marks : Column → List Char) (more : List Char),
      visible (carets labels line) = (columns line).flatMap marks ++ more ∧
      ∀ c : Column, c.offset < labels.foldl (fun n l => max n l.stop) 0 →
        marks c = List.replicate c.width (c.caret labels) := by
  unfold carets
  dsimp only
  rw [visible_write]
  · rw [List.flatMap_map, List.flatMap_append]
    refine ⟨_, _, rfl, fun c hc => ?_⟩
    simp only [toList_repeated, strongest_eq, Column.caret, hc]
    split_ifs <;> simp
  · intro t ht
    obtain ⟨c, -, rfl⟩ := List.mem_map.mp ht
    simp only [toList_repeated, strongest_eq]
    split_ifs <;> simp

end Snippet

/-- What stands under a character of a line is as far from the left as the character, and as wide:
before it there are as many marks as the text has screen columns. -/
theorem Snippet.carets_stand_below {labels : List LineLabel} {line : List Char}
    {before after : List Column} {c : Column} {l : LineLabel} (bars : List Bar)
    (hline : '\x1b' ∉ line) (hcolumns : columns line = before ++ c :: after) (hl : l ∈ labels)
    (hc : c.offset < l.stop) :
    ∃ text rest marks more,
      visible (sourceText labels bars line) = text ++ (c.shown ++ rest) ∧
      visible (carets labels line) =
        marks ++ (List.replicate (screenColumns c.shown) (c.caret labels) ++ more) ∧
      marks.length = screenColumns text := by
  have hreach := Nat.lt_of_lt_of_le hc (stop_le_foldl_max hl)
  have hwidth (d : Column) (hd : d ∈ before ++ c :: after) : screenColumns d.shown = d.width :=
    screenColumns_shown (hcolumns ▸ hd : d ∈ columns line)
  have hordered : (before ++ c :: after).Pairwise (·.offset ≤ ·.offset) := by
    rw [← hcolumns]
    exact pairwise_columnsFrom 0 0 line
  have hbefore := (List.pairwise_append.mp hordered).2.2
  obtain ⟨marks, more, hcarets, hmarks⟩ := visible_carets labels line
  refine ⟨before.flatMap Column.shown, after.flatMap Column.shown, before.flatMap marks,
    after.flatMap marks ++ more, ?_, ?_, length_flatMap_eq fun d hd => ?_⟩
  · rw [visible_sourceText hline, hcolumns, List.flatMap_append, List.flatMap_cons]
  · rw [hcarets, hcolumns, List.flatMap_append, List.flatMap_cons, hmarks c hreach,
      hwidth c (by simp), List.append_assoc, List.append_assoc]
  · have hreached := Nat.lt_of_le_of_lt (hbefore d hd c List.mem_cons_self) hreach
    rw [hmarks d hreached, List.length_replicate, hwidth d (List.mem_append_left _ hd)]

end StackEffect
