import Clipper.Proofs.Lexing.Lines
import Clipper.Proofs.Rendering.Signs
import Clipper.Proofs.Rendering.Words

/-!
Texts on one line with other text around them. In front of a bracket, a comma or a blank a text
ends that is neither inside a string nor inside a comment, and the same words stand in it as if it
stood alone.
-/

namespace Clipper

/-- A comment or a directive is open where the text ends: a comma behind it would be skipped. -/
def Cursor.leavesComment (c : Cursor) : Bool := (c.extended [',']).skipTrivia.ahead.isEmpty

/-- The text stands on one line and ends neither inside a string nor inside a comment. -/
structure Inline (file source : String) : Prop where
  line : '\n' ∉ source.toList
  strings : ∀ t ∈ (TokenStream.ofText file source).body, t.isUnclosed = false
  comments :
    ((Cursor.ofText source.toList).drained file source.toList.length).leavesComment = false

instance decidableInline {file source : String} : Decidable (Inline file source) :=
  decidable_of_iff ('\n' ∉ source.toList ∧
      (∀ t ∈ (TokenStream.ofText file source).body, t.isUnclosed = false) ∧
      ((Cursor.ofText source.toList).drained file source.toList.length).leavesComment = false)
    ⟨fun ⟨h, h', h''⟩ => ⟨h, h', h''⟩, fun ⟨h, h', h''⟩ => ⟨h, h', h''⟩⟩

/-! ### Between tokens -/

namespace Trivia

variable {mode : Mode} {p q : Place} {fresh fresh' : Bool} {text ds : List Char}

/-- A character that begins no comment, if the text behind it may not begin so either. -/
theorem skip_first {c : Char} {cs : List Char} (hds : ∀ d ∈ ds.head?, d ≠ '/' ∧ d ≠ '*' ∧ d ≠ '&')
    (hline : ∀ cs', c = '/' → cs = '/' :: cs' → False)
    (hline' : ∀ cs', c = '&' → cs = '&' :: cs' → False)
    (hblock : ∀ cs', c = '/' → cs = '*' :: cs' → False) :
    skip .blank p fresh (c :: (cs ++ ds)) =
      if Text.isBlank c then skip .blank (p.step c) (fresh || c == '\n') (cs ++ ds)
      else if c = '#' && fresh then skip .line (p.step c) fresh (cs ++ ds)
      else ⟨p, fresh, c :: (cs ++ ds)⟩ := by
  cases cs with
  | nil =>
      cases ds with
      | nil => exact skip_single (by simp) (by simp) (by simp)
      | cons d ds =>
          obtain ⟨h, h', h''⟩ := hds d rfl
          exact skip_single (by simp [h]) (by simp [h'']) (by simp [h'])
  | cons => exact skip_single (by simp_all) (by simp_all) (by simp_all)

/-- A line comment goes to the end of its line. -/
theorem skip_line (hline : '\n' ∉ text) : (skip .line p fresh text).ahead = [] := by
  induction text generalizing p with
  | nil => rfl
  | cons c cs ih =>
      rw [List.mem_cons, not_or] at hline
      rw [skip, if_neg (Ne.symm hline.1)]
      exact ih hline.2

/-- Behind a text that ends outside of comments skipping goes on with what follows, and in front of
a token that is not looked at. The tokens in front of the text make no difference. -/
theorem skip_inline (hline : '\n' ∉ text) (hfresh : fresh' = true → fresh = true)
    (hds : ∀ d ∈ ds.head?, d ≠ '/' ∧ d ≠ '*' ∧ d ≠ '&')
    (hshut : (skip mode p fresh text).ahead = [] →
      (skip mode p fresh (text ++ [','])).ahead ≠ []) :
    ∃ q', q'.line = q.line ∧ skip mode q fresh' (text ++ ds) =
      match (skip mode p fresh text).ahead with
      | [] => skip .blank q' fresh' ds
      | c :: cs => ⟨q', fresh', c :: cs ++ ds⟩ := by
  have hcomma : ∀ d ∈ [','].head?, d ≠ '/' ∧ d ≠ '*' ∧ d ≠ '&' := by simp
  fun_induction skip mode p fresh text generalizing q with
  | case1 mode p fresh =>
      cases mode with
      | blank => exact ⟨q, rfl, rfl⟩
      | line | block => simp [skip] at hshut
  | case2 => simp at hline
  | case3 p fresh c cs hc ih =>
      obtain ⟨q', hq, h⟩ := ih (q := q.step c) (by simp_all) hfresh
        (by simpa [skip, hc] using hshut)
      exact ⟨q', by simpa [Place.step, hc] using hq, by simpa [skip, hc] using h⟩
  | case4 p fresh cs ih =>
      obtain ⟨q', hq, h⟩ := ih (q := (q.step '*').step '/') (by simp_all) hfresh
        (by simpa [skip] using hshut)
      exact ⟨q', by simpa [Place.step] using hq, by simpa [skip] using h⟩
  | case5 p fresh c cs hpair ih =>
      rw [List.mem_cons, not_or] at hline
      cases cs with
      | nil => simp [skip] at hshut
      | cons d cs =>
          have hsame : ∀ b : Bool, (b || c == '\n') = b := by simp [Ne.symm hline.1]
          have hskip : ∀ (q : Place) (b : Bool) (es : List Char),
              skip .block q b (c :: (d :: cs ++ es)) =
                skip .block (q.step c) b (d :: cs ++ es) := by
            intro q b es
            rw [List.cons_append, skip, hsame]
            rintro _ rfl h
            obtain ⟨rfl, -⟩ := List.cons.inj h
            exact hpair _ rfl rfl
          rw [List.cons_append, hskip] at hshut
          rw [hsame] at hshut ih ⊢
          rw [List.cons_append, hskip]
          obtain ⟨q', hq, h⟩ := ih (q := q.step c) hline.2 hfresh hshut
          exact ⟨q', by simpa [Place.step, Ne.symm hline.1] using hq, h⟩
  | case6 p fresh cs ih =>
      obtain ⟨q', hq, h⟩ := ih (q := (q.step '/').step '/') (by simp_all) hfresh
        (by simpa [skip] using hshut)
      exact ⟨q', by simpa [Place.step] using hq, by simpa [skip] using h⟩
  | case7 p fresh cs ih =>
      obtain ⟨q', hq, h⟩ := ih (q := (q.step '&').step '&') (by simp_all) hfresh
        (by simpa [skip] using hshut)
      exact ⟨q', by simpa [Place.step] using hq, by simpa [skip] using h⟩
  | case8 p fresh cs ih =>
      obtain ⟨q', hq, h⟩ := ih (q := (q.step '/').step '*') (by simp_all) hfresh
        (by simpa [skip] using hshut)
      exact ⟨q', by simpa [Place.step] using hq, by simpa [skip] using h⟩
  | case9 p fresh c cs hslash hamp hblock hblank ih =>
      rw [List.mem_cons, not_or] at hline
      rw [List.cons_append, skip_first hcomma hslash hamp hblock, if_pos hblank] at hshut
      have hsame : (fresh' || c == '\n') = fresh' := by simp [Ne.symm hline.1]
      obtain ⟨q', hq, h⟩ := ih (q := q.step c) hline.2 (fun h => by simp [hfresh h]) hshut
      refine ⟨q', by simpa [Place.step, Ne.symm hline.1] using hq, ?_⟩
      rwa [List.cons_append, skip_first hds hslash hamp hblock, if_pos hblank, hsame]
  | case10 p fresh c cs hslash hamp hblock hblank hmark ih =>
      -- A directive would take the comma.
      rw [List.mem_cons, not_or] at hline
      rw [List.cons_append, skip_first hcomma hslash hamp hblock, if_neg hblank, if_pos hmark]
        at hshut
      exact absurd (skip_line (by simp [hline.2])) (hshut (skip_line hline.2))
  | case11 p fresh c cs hslash hamp hblock hblank hmark =>
      refine ⟨q, rfl, ?_⟩
      rw [List.cons_append, skip_first hds hslash hamp hblock, if_neg hblank, if_neg]
      · rfl
      · rw [Bool.and_eq_true] at hmark ⊢
        exact fun h => hmark ⟨h.1, hfresh h.2⟩

end Trivia

/-! ### Words -/

/-- No word, no number and no sign goes on with such a character, and no comment begins with it. -/
def Lexeme.Ends (ds : List Char) : Prop := ∀ d ∈ ds.head?, d ∈ shutters ∧ d ≠ ':'

namespace Lexeme

variable {c d : Char} {cs ds : List Char}

theorem glues_of_mem (hd : d ∈ shutters) (hcolon : d ≠ ':') : glues c d = false := by
  have hall : ∀ s ∈ symbols,
      (s.1.tail.all fun d => d == ':' || !shutters.contains d) = true := by decide
  apply not_glues
  intro s hs _ hmem
  have hother := List.all_eq_true.mp (hall s hs) d hmem
  simp [hd, hcolon] at hother

theorem Ends.apart (h : Ends ds) : ∀ d ∈ ds.head?, d ≠ '/' ∧ d ≠ '*' ∧ d ≠ '&' := by
  have hall : (shutters.all fun d => d != '/' && d != '*' && d != '&') = true := by decide
  intro d hd
  have hother := List.all_eq_true.mp hall d (h d hd).1
  simpa [and_assoc] using hother

theorem read_inline (h : Ends ds)
    (hclosed : isDelimiter c = true → (Literal.stringBody c cs).length < stringLength c cs) :
    read c (cs ++ ds) = read c cs := by
  cases hc : isDelimiter c with
  | false =>
      exact read_append hc (.inr fun d hd => stops_of_mem_shutters (h d hd).1)
        (.inr fun d hd => glues_of_mem (h d hd).1 (h d hd).2)
  | true =>
      obtain ⟨hslash, _⟩ := ne_of_isDelimiter hc
      rw [read_delimiter hc, read_delimiter hc, stringLength_append hslash (hclosed hc)]

end Lexeme

namespace Cursor

open Lexeme

variable {file : String} {c d : Cursor} {ds : List Char}

/-- The next word of a line is the same if the text goes on behind it, elsewhere and with other
tokens in front. -/
theorem next_inline (h : ¬c.AtEnd file) (hline : '\n' ∉ c.ahead)
    (hclosed : (c.next file).1.isUnclosed = false) (hds : Ends ds) (hd : d.ahead = c.ahead ++ ds)
    (hfresh : d.fresh = true → c.fresh = true) :
    ¬d.AtEnd file ∧ (d.next file).1.word = (c.next file).1.word ∧
      ((d.next file).1.line = d.place.line ∧ (d.next file).1.endLine = d.place.line) ∧
      (d.next file).2.place.line = d.place.line ∧ (d.next file).2.fresh = false ∧
      (d.next file).2.ahead = (c.next file).2.ahead ++ ds ∧ '\n' ∉ (c.next file).2.ahead := by
  have hopen : c.skipTrivia.ahead ≠ [] := fun hnil => h (atEnd_iff.mpr hnil)
  obtain ⟨gap, htext, -⟩ := c.next_eq file
  obtain ⟨first, others, hs⟩ := List.exists_cons_of_ne_nil hopen
  obtain ⟨q, hq, hskip⟩ := @Trivia.skip_inline .blank c.place d.place _ _ _ _ hline hfresh hds.apart
    fun hnil => absurd hnil hopen
  rw [← hd] at hskip
  change d.skipTrivia = (match c.skipTrivia.ahead with | [] => _ | c' :: cs => _) at hskip
  rw [hs] at hskip
  have hread := read_inline hds (closed_of_isDelimiter hs hclosed)
  have hsize : (Lexeme.read first others).size ≤ (first :: others).length :=
    Lexeme.size_read_le first others
  have htake := @List.take_append_of_le_length _ _ ds _ hsize
  have hdrop := @List.drop_append_of_le_length _ _ ds _ hsize
  rw [List.cons_append] at htake hdrop
  have hin : ∀ {cs : List Char}, cs ⊆ first :: others → '\n' ∉ cs := fun hcs hmem =>
    hline (htext ▸ List.mem_append_right _ (hs ▸ hcs hmem))
  have hliteral := hin (List.take_subset (Lexeme.read first others).size _)
  rw [atEnd_iff, hskip]
  refine ⟨by simp, ?_⟩
  unfold next Token.endLine
  rw [hskip]
  simp only [hs, Token.word, List.cons_append, hread, htake, hdrop, String.toList_ofList,
    Place.past_line, List.count_eq_zero.mpr hliteral, hq, Nat.add_zero]
  exact ⟨trivial, ⟨trivial, trivial⟩, trivial, trivial, trivial, hin (List.drop_subset _ _)⟩

end Cursor

/-- The words of tokens, line by line from a line on. -/
inductive Lines : Nat → List (List Word) → List Token → Prop
  | nil {l : Nat} : Lines l [] []
  | cons {l : Nat} {ts us : List Token} {wss : List (List Word)} :
      (∀ t ∈ ts, t.line = l ∧ t.endLine = l) → Lines (l + 1) wss us →
      Lines l (ts.map Token.word :: wss) (ts ++ us)

theorem Lines.empty {l : Nat} {wss : List (List Word)} {us : List Token}
    (h : Lines (l + 1) wss us) : Lines l ([] :: wss) us :=
  @cons l [] us wss nofun h

/-- Further words on the first line. -/
theorem Lines.add {l : Nat} {ts us : List Token} {ws : List Word} {wss : List (List Word)}
    (h : Lines l (ws :: wss) us) (hts : ∀ t ∈ ts, t.line = l ∧ t.endLine = l) :
    Lines l ((ts.map Token.word ++ ws) :: wss) (ts ++ us) := by
  cases h with
  | cons hus h =>
      rw [← List.map_append, ← List.append_assoc]
      exact .cons (List.forall_mem_append.mpr ⟨hts, hus⟩) h

theorem Lines.token {l : Nat} {t : Token} {us : List Token} {ws : List Word}
    {wss : List (List Word)} (h : Lines l (ws :: wss) us) (ht : t.line = l ∧ t.endLine = l) :
    Lines l ((t.word :: ws) :: wss) (t :: us) :=
  @Lines.add l [t] us ws wss h (List.forall_mem_singleton.mpr ht)

theorem Lines.single {l : Nat} {ts : List Token} {ws : List Word} (h : Lines l [ws] ts) :
    ts.map Token.word = ws ∧ ∀ t ∈ ts, t.line = l ∧ t.endLine = l := by
  cases h with
  | cons hts h =>
      cases h
      rw [List.append_nil]
      exact ⟨rfl, hts⟩

namespace Scans

open Lexeme TokenStream

variable {file : String} {c c' d : Cursor} {ts : List Token} {ds : List Char} {ws : List Word}
  {wss : List (List Word)}

/-- The words of a line with more text behind it are its own and those of that text. -/
theorem lines_inline (h : Scans file c ts c') (hend : c'.AtEnd file) (hline : '\n' ∉ c.ahead)
    (hclosed : ∀ t ∈ ts, t.isUnclosed = false) (hcomments : c'.leavesComment = false)
    (hds : Ends ds) (hd : d.ahead = c.ahead ++ ds) (hfresh : d.fresh = true → c.fresh = true)
    (hrest : ∀ q, q.line = d.place.line →
      Lines q.line (ws :: wss) (ofCursor file ⟨q, ts.isEmpty && d.fresh, ds⟩).body) :
    Lines d.place.line ((ts.map Token.word ++ ws) :: wss) (ofCursor file d).body := by
  induction h generalizing d with
  | done c =>
      have hshut : (c.extended [',']).skipTrivia.ahead ≠ [] := by
        simpa [Cursor.leavesComment] using hcomments
      obtain ⟨q, hq, hskip⟩ := @Trivia.skip_inline .blank c.place d.place _ _ _ _ hline hfresh
        hds.apart fun _ => hshut
      have hnil : (Trivia.skip .blank c.place c.fresh c.ahead).ahead = [] :=
        Cursor.atEnd_iff.mp hend
      rw [← hd, hnil] at hskip
      have hsame : d.skipTrivia = (Cursor.mk q d.fresh ds).skipTrivia := hskip
      rw [ofCursor_congr (Cursor.next_of_skipTrivia hsame), ← hq]
      exact hrest q hq
  | @token c c' ts hopen hts ih =>
      rw [List.forall_mem_cons] at hclosed
      obtain ⟨hopen', hword, hon, hplace, hfresh', hahead, hline'⟩ :=
        Cursor.next_inline hopen hline hclosed.1 hds hd hfresh
      have hall := ih hend hline' hclosed.2 hcomments hahead (by simp [hfresh']) fun q hq => by
        rw [hfresh', Bool.and_false]
        exact hrest q (hq.trans hplace)
      rw [hplace] at hall
      rw [body_of_not_atEnd hopen', List.map_cons, ← hword]
      exact hall.token hon

end Scans

/-- From everywhere, behind another token on the line or in front of all of them, the text has these
words on its lines. -/
def Lexed (file : String) (fresh : Bool) (cs : List Char) (wss : List (List Word)) : Prop :=
  ∀ p : Place, Lines p.line wss (TokenStream.ofCursor file ⟨p, fresh, cs⟩).body

namespace Lexed

variable {file source : String} {fresh : Bool} {cs : List Char} {ws : List Word}
  {wss : List (List Word)}

theorem nil : Lexed file fresh [] [[]] := by
  intro p
  rw [TokenStream.body_of_atEnd (Cursor.atEnd_iff.mpr rfl)]
  exact .empty .nil

theorem newline (h : Lexed file true cs wss) : Lexed file fresh ('\n' :: cs) ([] :: wss) := by
  intro p
  have hskip : (Cursor.mk p fresh ('\n' :: cs)).skipTrivia = _ :=
    Cursor.skipTrivia_lines p fresh 0 cs
  rw [TokenStream.ofCursor_congr (Cursor.next_of_skipTrivia hskip)]
  exact .empty (h (p.step '\n'))

theorem blank (h : Lexed file fresh cs wss) : Lexed file fresh (' ' :: cs) wss := by
  intro p
  have hskip : (Cursor.mk p fresh (' ' :: cs)).skipTrivia = _ :=
    Cursor.skipTrivia_blanks p fresh 1 cs
  rw [TokenStream.ofCursor_congr (Cursor.next_of_skipTrivia hskip)]
  exact h (p.step ' ')

theorem mark {p : Punctuation} {c : Char} (h : Lexed file false cs (ws :: wss))
    (hc : p.canonical.toList = [c]) (hline : c ≠ '\n') (hp : Layout.isColon p = false) :
    Lexed file fresh (c :: cs) ((Layout.marked p :: ws) :: wss) := by
  intro q
  have hfronts : Lexeme.Fronts (.punctuation p) p.canonical.toList cs :=
    Layout.fronts_mark fun hcolon => by simp [hp] at hcolon
  obtain ⟨hopen, hkind, hliteral, hplace, hnext⟩ :=
    Cursor.next_fronts (c := ⟨q, fresh, c :: cs⟩) file hfronts (by rw [hc]; rfl)
  have hcount : [c].count '\n' = 0 := List.count_eq_zero.mpr (by simp [Ne.symm hline])
  have hword : ((Cursor.mk q fresh (c :: cs)).next file).1.word = Layout.marked p := by
    rw [Token.word, hkind, hliteral, String.ofList_toList]
    rfl
  have hon : ((Cursor.mk q fresh (c :: cs)).next file).1.endLine = q.line := by
    rw [Token.endLine, hplace, hliteral, String.toList_ofList, hc, hcount, Nat.add_zero]
  have hrest := h (q.past p.canonical.toList)
  rw [Place.past_line, hc, hcount] at hrest
  rw [TokenStream.body_of_not_atEnd hopen, hnext, ← hword, hc]
  exact hrest.token ⟨hplace, hon⟩

theorem comma (h : Lexed file false cs (ws :: wss)) :
    Lexed file fresh (',' :: cs) ((Layout.marked .comma :: ws) :: wss) :=
  h.mark (by decide) (by decide) (by decide)

theorem openBracket (h : Lexed file false cs (ws :: wss)) :
    Lexed file fresh ('[' :: cs) ((Layout.marked .openBracket :: ws) :: wss) :=
  h.mark (by decide) (by decide) (by decide)

theorem closeBracket (h : Lexed file false cs (ws :: wss)) :
    Lexed file fresh (']' :: cs) ((Layout.marked .closeBracket :: ws) :: wss) :=
  h.mark (by decide) (by decide) (by decide)

/-- A text on a line that has words, and what stands behind it. -/
theorem append (hsource : Inline file source) (hbody : (TokenStream.ofText file source).body ≠ [])
    (hcs : Lexeme.Ends cs) (h : Lexed file false cs (ws :: wss)) :
    Lexed file fresh (source.toList ++ cs)
      (((TokenStream.ofText file source).body.map Token.word ++ ws) :: wss) := by
  intro p
  obtain ⟨c, hts, hend, -⟩ := (TokenStream.ofText_iff file source _).mp rfl
  have hdrained : (Cursor.ofText source.toList).drained file source.toList.length = c :=
    hts.drained_eq hend (Nat.le_refl _)
  apply hts.lines_inline (d := ⟨p, fresh, source.toList ++ cs⟩) hend hsource.line hsource.strings
    (hdrained ▸ hsource.comments) hcs rfl fun _ => rfl
  intro q hq
  rw [List.isEmpty_eq_false_iff.mpr hbody, Bool.false_and]
  exact h q

end Lexed

/-- A text on one line has all its tokens there. -/
theorem TokenStream.line_of_inline {file source : String} (hline : '\n' ∉ source.toList) :
    ∀ t ∈ (ofText file source).body, t.line = 1 ∧ t.endLine = 1 := by
  intro t ht
  have hone := one_le_line file source t (List.mem_append_left _ ht)
  have hend := endLine_le file source t ht
  rw [List.count_eq_zero.mpr hline] at hend
  have hle : t.line ≤ t.endLine := Nat.le_add_right _ _
  omega

end Clipper
