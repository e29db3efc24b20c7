import Clipper.Proofs.Lexing.Scan
import Clipper.Proofs.Reading.Lawful

/-!
Reading a whole text. It begins with all of the text's tokens pending and ends with
none; on the way every illegal character is reported.
-/

namespace Clipper

namespace Reader

variable {s : TokenStream}

theorem sound_ofStream (hs : s.Closed) : (ofStream s).Sound :=
  sound_shift (ready_shift hs.last_isEnd hs.body_open hs.body_written (by simp))

/-- Everything but the illegal characters is pending at first. -/
theorem pending_ofStream (hs : s.Closed) :
    (ofStream s).pending = s.body.filter fun t => !t.isIllegal := by
  have hlegal : s.body.filter Token.isSignificant = s.body.filter fun t => !t.isIllegal :=
    List.filter_congr fun t ht => by simp [Token.isSignificant, hs.body_open t ht]
  rw [← hlegal, ← filter_legal hs.last_isEnd s.body]
  exact pending_shift (r := (Reader.mk s.last s.last s.body s.last 1 false #[]).shift) hs.last_isEnd

@[simp] theorem line_ofStream : (ofStream s).line = 1 := rfl

@[simp] theorem last_ofStream : (ofStream s).last = s.last := rfl

@[simp] theorem muted_ofStream : (ofStream s).muted = false := rfl

/-- The first two tokens come into sight over illegal characters only. -/
theorem faults_ofStream :
    (ofStream s).faults.toList.filter (fun f => f.illegal?.isNone) = [] := by
  simp [ofStream, shift, Fault.illegal?]

theorem illegals_ofStream : (ofStream s).illegals = s.body.filter Token.isIllegal := by
  have h₁ := illegals_shift (Reader.mk s.last s.last s.body s.last 1 false #[]).shift
  have h₂ := illegals_shift (Reader.mk s.last s.last s.body s.last 1 false #[])
  exact h₁.trans (h₂.trans rfl)

end Reader

namespace Grammar

variable {s : TokenStream} {r r' : Reader} {p : Program}

theorem past_topStatement ⦃r : Reader⦄ ⦃ss : List Stmt⦄ ⦃r' : Reader⦄ (hr : r.Sound)
    (hm : (!r.atEnd) = true) (h : Run (statement (expression maxDepth) .file) r ss r') :
    r.Past r' :=
  past_statement (lawful_expression _) hr (by simpa using hm) h

theorem run_program (hr : r.Sound) :
    Run program r p r' ↔
      ∃ ss, Repeats (!·.atEnd) (statement (expression maxDepth) .file) r ss r' ∧ ⟨ss⟩ = p := by
  have h : Run program r p r' ↔
      ∃ ss, Run (repeated (!·.atEnd) (statement (expression maxDepth) .file)) r ss r' ∧
        ⟨ss⟩ = p := by
    simp [program]
  rw [h]
  exact exists_congr fun ss => and_congr_left fun _ => run_repeated past_topStatement hr

theorem Repeats.stopped {α : Type} {more : Reader → Bool} {body : Reading (List α)} {xs : List α}
    (h : Repeats more body r xs r') : more r' = false := by
  induction h with
  | stop h => exact h
  | round _ _ _ ih => exact ih

/-- Behind each statement of a file faults are reported again. -/
theorem Repeats.unmuted {ss : List Stmt}
    (h : Repeats (!·.atEnd) (statement (expression maxDepth) .file) r ss r')
    (hr : r.muted = false) : r'.muted = false := by
  induction h with
  | stop => exact hr
  | round _ hx _ ih =>
      obtain ⟨_, -, rfl⟩ := run_wholeStatement.mp hx
      exact ih rfl

/-- The run behind a parsed text. -/
structure Reads (s : TokenStream) (ss : List Stmt) (r : Reader) : Prop where
  statements : Repeats (!·.atEnd) (statement (expression maxDepth) .file) (.ofStream s) ss r
  onward : (Reader.ofStream s).Onward r
  atEnd : r.atEnd = true

theorem exists_reads (hs : s.Closed) :
    ∃ r, Reads s (Parsed.ofStream s).program.statements r ∧
      (Parsed.ofStream s).faults = r.faults.toList := by
  have hr := Reader.sound_ofStream hs
  obtain ⟨ss, h, hp⟩ := (run_program hr).mp (run_self program (.ofStream s))
  have hstatements : (Parsed.ofStream s).program.statements = ss := by
    change ((program.run (.ofStream s)).1).statements = ss
    rw [← hp]
  refine ⟨(program.run (.ofStream s)).2, ⟨hstatements ▸ h, ?_, ?_⟩, rfl⟩
  · exact h.onward past_topStatement hr
  · simpa using h.stopped

/-- At the end of a text its illegal characters have been reported, in their order. -/
theorem Reads.illegals {ss : List Stmt} (h : Reads s ss r) :
    r.faults.toList.filterMap Fault.illegal? = s.body.filter Token.isIllegal := by
  have hend := h.onward.sound.current_end h.atEnd
  have hahead := (h.onward.sound.next_end hend.2).2
  have := h.onward.illegals
  rw [Reader.illegals_ofStream, Reader.illegals, hahead] at this
  simpa using this

end Grammar

end Clipper
