import Clipper.Check
import Clipper.Proofs.Lexing.Word
import Clipper.Proofs.Likeness.Program
import Clipper.Proofs.Resolution.Table
import Mathlib.Data.List.Induction

/-!
The places of diagnostics. What a diagnostic says of lines and columns agrees with what its
span says of bytes, as far as the diagnostic is about something written in the text.
-/

namespace Clipper

/-- This byte offset of a text falls on that line and column. Both count from one, columns
in characters. -/
def Locates (text : List Char) (offset line column : Nat) : Prop :=
  ∃ before behind, text = before ++ behind ∧ Place.byteSize before = offset ∧
    line = 1 + before.count '\n' ∧ column = 1 + (before.reverse.takeWhile (· != '\n')).length

namespace Place

/-- A beginning of a text is known by its number of bytes. -/
theorem byteSize_inj {before before' behind behind' : List Char}
    (h : before ++ behind = before' ++ behind') (hsize : byteSize before = byteSize before') :
    before = before' := by
  induction before generalizing before' with
  | nil =>
      cases before' with
      | nil => rfl
      | cons c cs =>
          have := c.utf8Size_pos
          simp only [byteSize] at hsize
          omega
  | cons c cs ih =>
      cases before' with
      | nil =>
          have := c.utf8Size_pos
          simp only [byteSize] at hsize
          omega
      | cons c' cs' =>
          obtain ⟨rfl, hrest⟩ := List.cons.inj h
          rw [ih hrest (Nat.add_left_cancel hsize)]

theorem past_start_column (cs : List Char) :
    (start.past cs).column = 1 + (cs.reverse.takeWhile (· != '\n')).length := by
  induction cs using List.reverseRecOn with
  | nil => rfl
  | append_singleton cs c ih =>
      rw [past_append, past_cons, past_nil, step, List.reverse_append]
      split
      · rename_i h
        simp [h]
      · rename_i h
        simp [h, ih]
        omega

/-- Going through a text counts its lines and columns. -/
theorem locates_past {text before behind : List Char} (h : text = before ++ behind) :
    Locates text (start.past before).offset (start.past before).line
      (start.past before).column :=
  ⟨before, behind, h, by simp [past_offset, start], past_line start before,
    past_start_column before⟩

theorem past_line_column {p : Place} {cs : List Char} (h : '\n' ∉ cs) :
    (p.past cs).line = p.line ∧ (p.past cs).column = p.column + cs.length := by
  have hline := past_line p cs
  rw [List.count_eq_zero.mpr h] at hline
  have := past_line_or_column p cs
  omega

end Place

/-- An offset falls on one line and one column only. -/
theorem Locates.unique {text : List Char} {offset line line' column column' : Nat}
    (h : Locates text offset line column) (h' : Locates text offset line' column') :
    line = line' ∧ column = column' := by
  obtain ⟨before, behind, rfl, hsize, hline, hcolumn⟩ := h
  obtain ⟨before', behind', htext, hsize', hline', hcolumn'⟩ := h'
  obtain rfl := Place.byteSize_inj htext (hsize.trans hsize'.symm)
  exact ⟨hline.trans hline'.symm, hcolumn.trans hcolumn'.symm⟩

/-! ### Tokens -/

/-- The token covers a piece of the text. -/
structure Token.Located (text : List Char) (t : Token) : Prop where
  exists_piece : ∃ before behind, text = before ++ (t.literal.toList ++ behind) ∧
    t.place = Place.start.past before ∧
    t.span.stop = (Place.start.past (before ++ t.literal.toList)).offset

namespace Token.Located

variable {text : List Char} {t : Token}

theorem start (h : t.Located text) : Locates text t.span.start t.line t.column := by
  obtain ⟨before, behind, htext, hplace, -⟩ := h.exists_piece
  have := Place.locates_past htext
  rwa [← hplace] at this

/-- On a single line the end of a token is where its literal ends. -/
theorem stop (h : t.Located text) (hline : '\n' ∉ t.literal.toList) :
    Locates text t.span.stop t.endLine t.endColumn := by
  obtain ⟨before, behind, htext, hplace, hstop⟩ := h.exists_piece
  rw [← List.append_assoc] at htext
  have hlocates := Place.locates_past htext
  have hend := Place.past_line_column (p := Place.start.past before) hline
  rw [← Place.past_append, ← hplace] at hend
  have hendLine : t.endLine = t.line := by
    rw [Token.endLine, List.count_eq_zero.mpr hline, Nat.add_zero]
  rw [← hstop, hend.1, hend.2] at hlocates
  rwa [hendLine]

end Token.Located

theorem Scans.located {file : String} {c c' : Cursor} {ts : List Token} {text : List Char}
    (h : Scans file c ts c')
    (hc : ∃ before, text = before ++ c.ahead ∧ c.place = Place.start.past before) :
    ∀ t ∈ ts ++ [(c'.next file).1], t.Located text := by
  have hnext : ∀ {c : Cursor}, (∃ before, text = before ++ c.ahead ∧
      c.place = Place.start.past before) → (c.next file).1.Located text ∧
        ∃ before, text = before ++ (c.next file).2.ahead ∧
          (c.next file).2.place = Place.start.past before := by
    rintro c ⟨before, htext, hplace⟩
    obtain ⟨gap, hahead, hfirst, hbehind⟩ := c.next_located file
    rw [hplace, ← Place.past_append] at hfirst hbehind
    refine ⟨⟨before ++ gap, (c.next file).2.ahead, ?_, hfirst, ?_⟩, _, ?_, hbehind⟩
    · rw [htext, hahead, List.append_assoc]
    · rw [Cursor.next_stop, hbehind, List.append_assoc]
    · rw [htext, hahead]
      simp
  induction h with
  | done c => simpa using (hnext hc).1
  | token _ _ ih =>
      rw [List.cons_append, List.forall_mem_cons]
      exact ⟨(hnext hc).1, ih (hnext hc).2⟩

theorem tokens_located (source file : String) :
    ∀ t ∈ tokens source file, t.Located source.toList := by
  obtain ⟨c, hts, _, hlast⟩ := (TokenStream.ofText_iff file source _).mp rfl
  rw [tokens, TokenStream.toList, ← hlast]
  exact hts.located ⟨[], rfl, rfl⟩

/-! ### Faults -/

namespace Fault

/-- The token that a fault is shown at. -/
def marked : Fault → Token
  | expected _ t | unclosed _ _ t | notAStatement t | notAnExpression t | lineGoesOn t
  | notAssignable t | illegalCharacter t | tooDeep t | otherCounter t _ | integerTooLarge t
  | malformedNumber t | undeclared _ t | redeclared _ t _ => t

/-- Shown from the start to the end of its token. -/
def marksEnd : Fault → Bool
  | illegalCharacter _ | otherCounter _ _ | undeclared _ _ | redeclared _ _ _ => true
  | _ => false

theorem diagnostic_start (f : Fault) :
    f.diagnostic.span = f.marked.span ∧ f.diagnostic.line = f.marked.line ∧
      f.diagnostic.column = f.marked.column := by
  cases f <;> simp [diagnostic, marked, syntactic, lexical, Diagnostic.onToken,
    Diagnostic.withNote, Diagnostic.withHint, Diagnostic.withCode, Diagnostic.withSeverity,
    Diagnostic.through]

theorem diagnostic_stop (f : Fault) :
    (f.diagnostic.endLine, f.diagnostic.endColumn) =
      if f.marksEnd then (some f.marked.endLine, some f.marked.endColumn) else (none, none) := by
  cases f <;> rfl

/-- What a fault marks is a token of the text, and if it is marked to its end it stands on
one line. -/
structure Marks (source file : String) (f : Fault) : Prop where
  mem : f.marked ∈ tokens source file
  oneLine : f.marksEnd = true → '\n' ∉ f.marked.literal.toList

/-- What a fault marks is written in the text, and if it is marked to its end it stands on
one line. -/
structure Written (text : List Char) (f : Fault) : Prop where
  located : f.marked.Located text
  oneLine : f.marksEnd = true → '\n' ∉ f.marked.literal.toList

theorem Marks.written {source file : String} {f : Fault} (h : f.Marks source file) :
    f.Written source.toList :=
  ⟨tokens_located source file _ h.mem, h.oneLine⟩

end Fault

section

open Correspondence

variable {source file : String} {f : Fault} {t : Token}

theorem oneLine_of_word (h : t ∈ (TokenStream.ofText file source).legal)
    (hk : t.kind = .identifier ∨ t.kind = .keyword .kwSelf) : '\n' ∉ t.literal.toList :=
  (TokenStream.ofText_spelled file source t (TokenStream.mem_body_of_legal h)).not_mem_of_word hk
    Lexeme.isWordPart_newline

theorem mem_tokens_of_legal (h : t ∈ (TokenStream.ofText file source).legal) :
    t ∈ tokens source file :=
  List.mem_append_left _ (TokenStream.mem_body_of_legal h)

theorem mem_tokens_of_meets (h : (self (.ofText file source)).Meets t t) :
    t ∈ tokens source file := by
  rcases h with h | h
  · exact mem_tokens_of_legal h.2.1
  · exact List.mem_append_right _ (by simp [h.2.1])

theorem marks_of_illegal (hf : f ∈ (Parsed.ofSource source file).faults)
    (h : f.illegal? = some t) : f.Marks source file := by
  obtain ⟨r, hreads, hfaults⟩ := Grammar.exists_reads (TokenStream.closed_ofText file source)
  have hmem : t ∈ (TokenStream.ofText file source).body.filter Token.isIllegal := by
    rw [← hreads.illegals]
    have hf : f ∈ r.faults.toList := hfaults ▸ hf
    exact List.mem_filterMap.mpr ⟨f, hf, h⟩
  obtain ⟨hbody, hillegal⟩ := List.mem_filter.mp hmem
  cases f with
  | illegalCharacter u =>
      obtain rfl : u = t := Option.some.inj h
      refine ⟨List.mem_append_left _ hbody, fun _ hmem => ?_⟩
      obtain ⟨c, hc, hliteral⟩ := (TokenStream.ofText_spelled file source u hbody).illegal
        (by simpa [Token.isIllegal] using hillegal)
      have hmem : '\n' ∈ u.literal.toList := hmem
      simp only [hliteral, String.toList_ofList, List.mem_singleton] at hmem
      exact hc hmem.symm
  | _ => cases h

/-- Every fault of the grammar is about a token of the text. -/
theorem marks_of_parsed (hf : f ∈ (Parsed.ofSource source file).faults) :
    f.Marks source file := by
  cases hillegal : f.illegal? with
  | some t => exact marks_of_illegal hf hillegal
  | none =>
      have h := (Parsed.alike_self source file).2 f hf hillegal
      cases h with
      | expected _ h | unclosed _ _ h | notAStatement h | notAnExpression h | lineGoesOn h
      | notAssignable h | tooDeep h => exact ⟨mem_tokens_of_meets h, fun h => nomatch h⟩
      | otherCounter h hk _ =>
          exact ⟨mem_tokens_of_legal h.2.1, fun _ => oneLine_of_word h.2.1 (.inl hk)⟩
      | integerTooLarge h | malformedNumber h =>
          exact ⟨mem_tokens_of_legal h.2.1, fun h => nomatch h⟩

end

/-! ### Diagnostics -/

/-- Every fault of a check marks a token of the text, but for a receiver that is only implied
by one. -/
theorem marks_of_check {x : Externals} {source file : String} {f : Fault}
    (hf : f ∈ (Check.ofSource x source file).parsed.faults ++
      (Check.ofSource x source file).analysis.faults) :
    f.Marks source file ∨ ∃ t ∈ tokens source file,
      f = .undeclared "Self" (.implied (.keyword .kwSelf) "Self" t) := by
  rcases List.mem_append.mp hf with hf | hf
  · exact .inl (marks_of_parsed hf)
  have halike := Correspondence.statements_of_forall₂ (Parsed.alike_self source file).1
  rcases Analysis.exists_of_mem_faults hf with ⟨d, hd, first, rfl, hname⟩ | ⟨r, hr, rfl, hname⟩
  · have hd := List.forall₂_same.mp (Correspondence.declarations_of_alike halike) d hd
    obtain ⟨hmem, hk⟩ := mem_legal_of_names hd.name hname
    exact .inl ⟨mem_tokens_of_legal hmem, fun _ => oneLine_of_word hmem (.inl hk)⟩
  · have hr := List.forall₂_same.mp (Correspondence.references_of_alike halike) r hr
    rcases mem_legal_of_mentions hr.name hname with ⟨hmem, hk⟩ | ⟨t, ht, hn⟩
    · exact .inl ⟨mem_tokens_of_legal hmem, fun _ => oneLine_of_word hmem hk⟩
    · exact .inr ⟨t, mem_tokens_of_legal ht, by rw [hn]; rfl⟩

/-- Every fault of a check is written in the text, but for a receiver that is only implied. -/
theorem written_of_check {x : Externals} {source file : String} {f : Fault}
    (hf : f ∈ (Check.ofSource x source file).parsed.faults ++
      (Check.ofSource x source file).analysis.faults) :
    f.Written source.toList ∨ ∃ t : Token, t.Located source.toList ∧
      f = .undeclared "Self" (.implied (.keyword .kwSelf) "Self" t) :=
  (marks_of_check hf).imp Fault.Marks.written fun ⟨t, ht, hfault⟩ =>
    ⟨t, tokens_located source file t ht, hfault⟩

/-- A diagnostic says on which line and column its span begins. Where it also says on which
line and column it ends, its span ends there, unless it is about a receiver that is not
written: that has an empty span and ends four columns on. -/
theorem diagnostics_located (x : Externals) (source file : String) {d : Diagnostic}
    (hd : d ∈ (Check.ofSource x source file).diagnostics) :
    Locates source.toList d.span.start d.line d.column ∧
      ((d.endLine = none ∧ d.endColumn = none) ∨
        ∃ line column, d.endLine = some line ∧ d.endColumn = some column ∧
          (Locates source.toList d.span.stop line column ∨
            d.code = some .undeclared ∧ d.span.isEmpty = true ∧ line = d.line ∧
              column = d.column + 4)) := by
  obtain ⟨f, hf, rfl⟩ : ∃ f ∈ (Check.ofSource x source file).parsed.faults ++
      (Check.ofSource x source file).analysis.faults, f.diagnostic = d := by
    simpa [Check.diagnostics, Parsed.diagnostics, Analysis.diagnostics, or_and_right,
      exists_or] using hd
  obtain ⟨hspan, hline, hcolumn⟩ := f.diagnostic_start
  rcases written_of_check hf with hf | ⟨t, ht, rfl⟩
  · refine ⟨by rw [hspan, hline, hcolumn]; exact hf.located.start, ?_⟩
    have hstop := f.diagnostic_stop
    cases hend : f.marksEnd with
    | false =>
        rw [hend] at hstop
        exact .inl (Prod.mk.inj hstop)
    | true =>
        rw [hend] at hstop
        obtain ⟨hl, hc⟩ := Prod.mk.inj hstop
        refine .inr ⟨_, _, hl, hc, .inl ?_⟩
        rw [hspan]
        exact hf.located.stop (hf.oneLine hend)
  · have hstart : Locates source.toList t.span.start t.line t.column := ht.start
    refine ⟨by rw [hspan, hline, hcolumn]; exact hstart, .inr ⟨_, _, rfl, rfl, .inr ?_⟩⟩
    rw [hspan, hline, hcolumn]
    have hlength : "Self".length = 4 := by decide
    simp [Fault.diagnostic, Diagnostic.withCode, Diagnostic.through, Diagnostic.withHint,
      Fault.marked, Token.endLine, Token.endColumn, Token.implied, Span.isEmpty, Span.size, hlength]

/-- The diagnostic about a name that no declaration is there for. -/
theorem diagnostics_located_undeclared :
    ∃ d ∈ (Check.ofSource .none "\n ax" "t.prw").diagnostics,
      (Locates "\n ax".toList d.span.start d.line d.column) ∧
        ((d.endLine = none ∧ d.endColumn = none) ∨
          ∃ line column, d.endLine = some line ∧ d.endColumn = some column ∧
            (Locates "\n ax".toList d.span.stop line column ∨
              d.code = some .undeclared ∧ d.span.isEmpty = true ∧ line = d.line ∧
                column = d.column + 4)) := by
  have hd : (Fault.undeclared "ax" ⟨.identifier, "ax", ⟨2, 4⟩, 2, 2, "t.prw"⟩).diagnostic ∈
      (Check.ofSource .none "\n ax" "t.prw").diagnostics := by
    decide +kernel
  exact ⟨_, hd, diagnostics_located .none "\n ax" "t.prw" hd⟩

/-- The receiver that `::` implies is said to end four columns behind its span. -/
theorem implied_receiver_not_located :
    ∃ d ∈ (Check.ofSource .none "::x\n" "t.prw").diagnostics,
      d.endLine = some 1 ∧ d.endColumn = some 5 ∧ ¬Locates "::x\n".toList d.span.stop 1 5 := by
  have hd : (Fault.undeclared "Self"
      ⟨.keyword .kwSelf, "Self", ⟨0, 0⟩, 1, 1, "t.prw"⟩).diagnostic ∈
      (Check.ofSource .none "::x\n" "t.prw").diagnostics := by
    decide +kernel
  refine ⟨_, hd, by decide, by decide, fun h => ?_⟩
  have hstart : Locates "::x\n".toList 0 1 1 := ⟨[], _, rfl, rfl, rfl, rfl⟩
  exact absurd (h.unique hstart).2 (by decide)

end Clipper
