import StackEffect.Proofs.Locations
import StackEffect.Proofs.Snippets
import StackEffect.Session

/-! # What a session tells

A session ends with status zero exactly if its file can be read and its text is accepted, whatever
the user wants to see and however diagnostics are laid out. A rejection is told in full: its message
and those of its notes stand in the output, in the plain form and in snippets alike.
-/

namespace StackEffect

theorem Shows.trans {line part text : String} (h : Shows line part) (h' : Shows part text) :
    Shows line text := by
  obtain ⟨before, after, rfl⟩ := h
  exact (h'.append_left before).append_right after

theorem shows_intercalate (separator : String) {lines : List String} {line : String}
    (h : line ∈ lines) : Shows (separator.intercalate lines) line := by
  induction lines with
  | nil => cases h
  | cons first lines ih =>
    cases lines with
    | nil =>
      obtain rfl := List.mem_singleton.mp h
      rw [String.intercalate_singleton]
      exact .refl _
    | cons second lines =>
      rw [String.intercalate_cons_cons]
      obtain rfl | h := List.mem_cons.mp h
      · exact ((Shows.refl _).append_right _).append_right _
      · exact (ih h).append_left _

namespace Fault

/-- What a rejection says: its own message and those of its notes. -/
def messages (e : Fault) : List String :=
  e.cause.message :: e.notes.map (·.remark.message)

theorem render_shows {e : Fault} {message : String} (h : message ∈ e.messages) :
    Shows e.report.render message := by
  obtain rfl | hnote := List.mem_cons.mp h
  · exact (shows_intercalate _ List.mem_cons_self).trans ((Shows.refl _).append_left _)
  · obtain ⟨n, hn, rfl⟩ := List.mem_map.mp hnote
    have hline : Report.noteLine ⟨n.remark.message, n.loc⟩ ∈ e.report.notes.map Report.noteLine :=
      List.mem_map_of_mem (List.mem_map_of_mem hn)
    exact (shows_intercalate _ (List.mem_cons_of_mem _ hline)).trans ((Shows.refl _).append_left _)

/-- In snippets of the file that is rejected everything is said. -/
theorem snippets_show {f : SourceFile} {e : Fault} {message : String}
    (hrejected : Checked.ofSource f.name f.text = .error e) (h : message ∈ e.messages) :
    ∃ line ∈ Diagnostic.snippets [f] (.ofReport [f] e.report), Shows line message := by
  have hknown : Named.last? f.name [f] = some (0, ⟨f.name, f.text⟩) := by
    have hname : Named.name f = f.name := rfl
    simp [Named.last?, hname]
  have hplaces : ∀ loc ∈ e.places, loc.file = f.name := by
    have hreal := outcomePlaces_isReal f.name f.text
    rw [hrejected] at hreal
    exact fun loc hloc => (hreal loc hloc).file_eq
  have hlabels := Diagnostic.labels_ofReport hknown hplaces
  have hlabel : ∃ l ∈ (Diagnostic.ofReport [f] e.report).labels,
      l.file = 0 ∧ l.message = message := by
    rw [hlabels]
    obtain rfl | hnote := List.mem_cons.mp h
    · exact ⟨_, List.mem_cons_self, rfl, rfl⟩
    · obtain ⟨n, hn, rfl⟩ := List.mem_map.mp hnote
      exact ⟨_, List.mem_cons_of_mem _ (List.mem_map_of_mem hn), rfl, rfl⟩
  obtain ⟨l, hl, hfile, rfl⟩ := hlabel
  exact (Diagnostic.snippets_show [f] _).1 l hl (by simp [hfile])

end Fault

namespace Session

variable {layout : Diagnostic.Layout} {o : Options} {name : String} {bytes : Option ByteArray}
  {f : SourceFile} {e : Fault}

theorem check_result (o : Options) (f : SourceFile) :
    (check o f).2 = Checked.ofSource f.name f.text := by
  unfold check Checked.ofSource Program.ofSource
  cases TokenStream.ofSource f.name f.text with
  | error fault => rfl
  | ok tokens =>
    rw [ok_bind]
    dsimp only
    cases Program.ofTokens tokens with
    | error fault => rfl
    | ok program =>
      rw [ok_bind]
      dsimp only
      cases Checked.ofProgram program <;> rfl

theorem run_of_accepted {c : Checked} (hread : SourceFile.read name bytes = .ok f)
    (h : Checked.ofSource f.name f.text = .ok c) : (run layout o name bytes).status = 0 := by
  rw [← check_result o] at h
  simp only [run, hread, h]

/-- The last that a session tells about a rejected text is the complaint. -/
theorem run_of_rejected (layout : Diagnostic.Layout) (o : Options)
    (hread : SourceFile.read name bytes = .ok f) (h : Checked.ofSource f.name f.text = .error e) :
    (run layout o name bytes).status = 1 ∧
      complaint layout o f e.report <:+ (run layout o name bytes).lines := by
  rw [← check_result o] at h
  simp only [run, hread, h, true_and]
  exact List.suffix_append _ _

/-- The status is zero exactly if the text is accepted, whatever the session shows. -/
theorem status_eq_zero_iff :
    (run layout o name bytes).status = 0 ↔
      ∃ f c, SourceFile.read name bytes = .ok f ∧ Checked.ofSource f.name f.text = .ok c := by
  cases hread : SourceFile.read name bytes with
  | error r => simp [run, hread]
  | ok f =>
    cases h : Checked.ofSource f.name f.text with
    | ok c => simp [run_of_accepted hread h, h]
    | error e => simp [(run_of_rejected layout o hread h).1, h]

/-- Only a session that is to show snippets depends on how they are laid out. -/
theorem run_eq_of_not_pretty (layout' : Diagnostic.Layout) (h : o.pretty = false) :
    run layout o name bytes = run layout' o name bytes := by
  simp only [run, complaint, h, Bool.false_eq_true, if_false]

/-- A rejection is told in full, in the plain form and in snippets. -/
theorem rejection_is_told {message : String} (o : Options)
    (hread : SourceFile.read name bytes = .ok f) (h : Checked.ofSource f.name f.text = .error e)
    (hmessage : message ∈ e.messages) :
    ∃ line ∈ (run Diagnostic.snippets o name bytes).lines, Shows line message := by
  have hlast := (run_of_rejected Diagnostic.snippets o hread h).2
  have htold : ∃ line ∈ complaint Diagnostic.snippets o f e.report, Shows line message := by
    unfold complaint
    split
    · exact Fault.snippets_show h hmessage
    · exact ⟨_, List.mem_singleton_self _, Fault.render_shows hmessage⟩
  obtain ⟨line, hline, hshows⟩ := htold
  exact ⟨line, hlast.subset hline, hshows⟩

end Session

end StackEffect
