import Clipper.Proofs.Rendering.Leaves

/-!
The shapes of tokens. What a token covers looks as its kind says, and goes on as far as it can:
behind a word there is no more of the word, and behind a number no further digit.
-/

namespace Clipper

/-- The text is one of these spellings, in some case of its letters. -/
def Spelt (spellings : List String) (text : List Char) : Prop :=
  ∃ s ∈ spellings, Text.sameWord s (String.ofList text) = true

/-- In a table in which each spelling is found at its own entry, a text is spelled as an entry says
if that is the one found for it. -/
theorem spelt_iff {α : Type} {all : List α} (spellings : α → List String) (hmem : ∀ a, a ∈ all)
    (hfound : ∀ a ∈ all, ∀ s ∈ spellings a,
      all.find? (fun b => (spellings b).any (Text.sameWord · s)) = some a)
    {a : α} {text : List Char} :
    Spelt (spellings a) text ↔
      all.find? (fun b => (spellings b).any (Text.sameWord · (String.ofList text))) = some a := by
  constructor
  · rintro ⟨s, hs, hsame⟩
    rw [← hfound a (hmem a) s hs]
    simp only [Text.sameWord, Text.sameWord_iff.mp hsame]
  · intro h
    have hany := List.find?_some h
    exact List.any_eq_true.mp hany

theorem Keyword.spelt_iff {k : Keyword} {text : List Char} :
    Spelt k.spellings text ↔ ofWord? (String.ofList text) = some k :=
  Clipper.spelt_iff spellings mem_all (by decide)

theorem Operator.spelt_iff {o : Operator} {text : List Char} :
    Spelt o.spellings text ↔ ofWord? (String.ofList text) = some o :=
  Clipper.spelt_iff spellings mem_all (by decide)

/-- No two marks share a spelling. -/
theorem Punctuation.spelt_canonical (p q : Punctuation) :
    Spelt (q.canonical :: q.aliases) p.canonical.toList ↔ q = p := by
  have hfind (r : Punctuation) : Spelt (r.canonical :: r.aliases) p.canonical.toList ↔ _ = some r :=
    Clipper.spelt_iff (fun p => p.canonical :: p.aliases) mem_all (by decide)
  have hown : Spelt (p.canonical :: p.aliases) p.canonical.toList :=
    ⟨p.canonical, List.mem_cons_self, by rw [String.ofList_toList, Text.sameWord_self]⟩
  rw [hfind q, (hfind p).mp hown, Option.some.injEq, eq_comm]

namespace Lexeme

/-- No word goes on in such a text. -/
def EndsWord (rest : List Char) : Prop := ∀ c ∈ rest.head?, isWordPart c = false

/-- No number goes on in such a text. -/
def EndsDigits (rest : List Char) : Prop := ∀ c ∈ rest.head?, c.isDigit = false

/-- A string with its delimiters. One that is not closed takes all there is, and may leave a
backslash over. -/
inductive Quoted (rest : List Char) : List Char → Prop
  | closed {d : Char} {cs : List Char} : isDelimiter d = true → Body d cs →
      Quoted rest (d :: (cs ++ [d]))
  | unclosed {d : Char} {cs : List Char} : rest = [] → isDelimiter d = true → Body d cs →
      Quoted rest (d :: cs)
  | pending {d : Char} {cs : List Char} : rest = [] → isDelimiter d = true → Body d cs →
      Quoted rest (d :: (cs ++ ['\\']))

/-- The text of a token of each kind, and what may stand behind it. -/
def Shape (text rest : List Char) : TokenKind → Prop
  | .identifier =>
      (∃ c cs, text = c :: cs ∧ isWordStart c = true ∧ ∀ d ∈ cs, isWordPart d = true) ∧
        (∀ k : Keyword, ¬Spelt k.spellings text) ∧ EndsWord rest
  | .keyword k =>
      (∀ k' : Keyword, Spelt k'.spellings text ↔ k' = k) ∧
        (text.head? ≠ some '.' → EndsWord rest)
  | .operator o => ∀ o' : Operator, Spelt o'.spellings text ↔ o' = o
  | .punctuation p => ∀ p' : Punctuation, Spelt (p'.canonical :: p'.aliases) text ↔ p' = p
  | .integer => Digits text ∧ EndsDigits rest
  | .float =>
      (∃ ds es, text = ds ++ '.' :: es ∧ (∀ c ∈ ds ++ es, c.isDigit = true) ∧ ds ++ es ≠ []) ∧
        (∃ bits, Binary64.ofDecimal? text = some bits) ∧ EndsDigits rest
  | .date =>
      (∃ ds es fs, Digits ds ∧ Digits es ∧ Digits fs ∧
        text = ds ++ '/' :: (es ++ '/' :: fs)) ∧ EndsDigits rest
  | .string => Quoted rest text
  | .illegal => ∃ c, text = [c]
  | .endOfInput => text = [] ∧ rest = []

variable {c d : Char} {cs ds text rest : List Char}

/-! ### Words -/

theorem stops_drop_takeWhile (p : Char → Bool) (cs : List Char) :
    ∀ c ∈ (cs.drop (cs.takeWhile p).length).head?, p c = false := by
  induction cs with
  | nil => simp
  | cons c cs ih =>
      cases hc : p c with
      | true => simpa [hc] using ih
      | false => simp [hc]

theorem shape_keyword {k : Keyword} (h : Keyword.ofWord? (String.ofList text) = some k)
    (hends : text.head? ≠ some '.' → EndsWord rest) : Shape text rest (.keyword k) := by
  refine ⟨fun k' => ?_, hends⟩
  rw [Keyword.spelt_iff, h, Option.some.injEq, eq_comm]

theorem shape_operator {o : Operator} (h : Operator.ofWord? (String.ofList text) = some o) :
    Shape text rest (.operator o) := by
  intro o'
  rw [Operator.spelt_iff, h, Option.some.injEq, eq_comm]

theorem shape_word (hc : isWordStart c = true) (cs : List Char) :
    Shape ((c :: cs).take (word (c :: cs)).size) ((c :: cs).drop (word (c :: cs)).size)
      (word (c :: cs)).kind := by
  have hends : EndsWord ((c :: cs).drop (word (c :: cs)).size) :=
    stops_drop_takeWhile isWordPart (c :: cs)
  rw [take_word, word_kind]
  split
  · rename_i hk
    exact shape_keyword hk fun _ => hends
  · rename_i hname
    refine ⟨⟨c, cs.takeWhile isWordPart, ?_, hc, List.all_eq_true.mp List.all_takeWhile⟩, ?_, hends⟩
    · exact List.takeWhile_cons_of_pos (isWordPart_of_isWordStart hc)
    · intro k hk
      rw [Keyword.spelt_iff, hname] at hk
      cases hk

/-! ### Numbers -/

theorem endsDigits_drop_digitRun (cs : List Char) : EndsDigits (cs.drop (digitRun cs)) :=
  stops_drop_takeWhile Char.isDigit cs

theorem endsDigits_drop_slashGroup? {n : Nat} (h : slashGroup? cs = some n) :
    EndsDigits (cs.drop n) := by
  unfold slashGroup? at h
  split at h
  · rename_i cs
    split at h
    · obtain rfl := Option.some.inj h
      rw [List.drop_succ_cons]
      exact endsDigits_drop_digitRun cs
    · cases h
  · cases h

/-- Behind what a number takes no digit follows, if none follows the first digits. -/
theorem endsDigits_drop_numberTail (h : EndsDigits cs) :
    EndsDigits (cs.drop (numberTail cs).size) := by
  fun_cases numberTail cs with
  | case1 _ n hn m hm =>
      rw [← List.drop_drop]
      exact endsDigits_drop_slashGroup? hm
  | case3 c ds =>
      rw [List.drop_succ_cons]
      exact endsDigits_drop_digitRun (c :: ds)
  | case5 c ds hdigit =>
      show ∀ d ∈ (c :: ds).head?, d.isDigit = false
      simpa using hdigit
  | case6 => simp [EndsDigits]
  | case2 | case4 | case7 => exact h

/-- The spelling of a number, in front of something else than a digit. -/
theorem shape_of_spells {k : TokenKind} (hk : k = .integer ∨ k = .float ∨ k = .date)
    (h : Spells k text) (hends : EndsDigits rest) : Shape text rest k := by
  rcases hk with rfl | rfl | rfl
  · cases h with
    | integer hds => exact ⟨hds, hends⟩
  · refine ⟨?_, decimal_of_spells h, hends⟩
    cases h with
    | @float ds es hds hes =>
        refine ⟨ds, es, rfl, ?_, by simp [hds.1]⟩
        exact List.forall_mem_append.mpr ⟨hds.2, hes.2⟩
    | @openFloat ds hds => exact ⟨ds, [], rfl, by simpa using hds.2, by simp [hds.1]⟩
    | @pointFloat es hes => exact ⟨[], es, rfl, hes.2, hes.1⟩
  · refine ⟨?_, hends⟩
    cases h with
    | date hds hes hfs => exact ⟨_, _, _, hds, hes, hfs, rfl⟩

theorem shape_number (hc : c.isDigit = true) (cs : List Char) :
    Shape ((c :: cs).take (number (c :: cs)).size) ((c :: cs).drop (number (c :: cs)).size)
      (number (c :: cs)).kind := by
  refine shape_of_spells ?_ (spells_number hc cs) ?_
  · have := kind_numberTail_cases ((c :: cs).drop (digitRun (c :: cs)))
    tauto
  · rw [number, ← List.drop_drop]
    exact endsDigits_drop_numberTail (endsDigits_drop_digitRun _)

/-! ### Points -/

theorem take_dottedLetters? {letters : List Char} (h : dottedLetters? cs = some letters) :
    ('.' :: cs).take letters.length = letters ∧ letters.head? = some '.' := by
  simp only [dottedLetters?] at h
  split at h
  · rename_i hclosed
    obtain rfl := Option.some.inj h
    rw [Bool.and_eq_true, beq_iff_eq] at hclosed
    obtain ⟨rest, hrest⟩ := List.head?_eq_some_iff.mp hclosed.2
    have hcs : cs = cs.takeWhile Char.isAlpha ++ '.' :: rest := by
      rw [← hrest, List.prefix_iff_eq_take.mp (List.takeWhile_prefix Char.isAlpha),
        List.length_take, Nat.min_eq_left (List.takeWhile_prefix Char.isAlpha).length_le,
        List.take_append_drop]
    generalize cs.takeWhile Char.isAlpha = letters at hcs
    refine ⟨?_, rfl⟩
    rw [hcs]
    simp [List.take_append]
  · cases h

theorem shape_dottedWord {k : TokenKind} (hpoint : text.head? = some '.')
    (h : dottedWord? (String.ofList text) = some k) : Shape text rest k := by
  rw [dottedWord?] at h
  split at h
  · obtain rfl := Option.some.inj h
    exact shape_keyword ‹_› fun hne => absurd hpoint hne
  · obtain rfl := Option.some.inj h
    exact shape_keyword ‹_› fun hne => absurd hpoint hne
  · obtain ⟨o, ho, rfl⟩ := Option.map_eq_some_iff.mp h
    exact shape_operator ho

theorem shape_dot (cs : List Char) :
    Shape (('.' :: cs).take (dot cs).size) (('.' :: cs).drop (dot cs).size) (dot cs).kind := by
  unfold dot
  split
  · rename_i hdigit
    rw [List.take_succ_cons, List.drop_succ_cons, take_digitRun]
    exact shape_of_spells (.inr (.inl rfl)) (.pointFloat (digits_takeWhile hdigit))
      (endsDigits_drop_digitRun cs)
  split
  · exact ⟨'.', rfl⟩
  rename_i letters hletters
  split
  · rename_i hk
    obtain ⟨htake, hpoint⟩ := take_dottedLetters? hletters
    rw [htake]
    exact shape_dottedWord hpoint hk
  · exact ⟨'.', rfl⟩

/-! ### Signs -/

/-- Each sign is a spelling of its operator or its mark. -/
theorem spelling_of_mem_symbols {s : List Char × TokenKind} (h : s ∈ symbols) :
    (∃ o, ∃ t ∈ Operator.spellings o, s = (t.toList, .operator o)) ∨
      ∃ p : Punctuation, s = (p.canonical.toList, .punctuation p) := by
  have hundotted : s ∈ (Operator.all.flatMap fun o =>
      o.spellings.map fun s => (s.toList, TokenKind.operator o)) ++
        Punctuation.all.map fun p => (p.canonical.toList, TokenKind.punctuation p) := by
    rcases List.mem_append.mp h with h | h
    · exact List.mem_of_mem_filter (List.mem_of_mem_filter h)
    · exact List.mem_of_mem_filter (List.mem_of_mem_filter h)
  rcases List.mem_append.mp hundotted with h | h
  · obtain ⟨o, _, h⟩ := List.mem_flatMap.mp h
    obtain ⟨t, ht, rfl⟩ := List.mem_map.mp h
    exact .inl ⟨o, t, ht, rfl⟩
  · obtain ⟨p, _, rfl⟩ := List.mem_map.mp h
    exact .inr ⟨p, rfl⟩

theorem shape_symbol (c : Char) (cs : List Char) :
    Shape ((c :: cs).take (symbol (c :: cs)).size) ((c :: cs).drop (symbol (c :: cs)).size)
      (symbol (c :: cs)).kind := by
  unfold symbol
  split
  · rename_i text kind hs
    have hbegins := List.find?_some hs
    rw [← List.prefix_iff_eq_take.mp (List.isPrefixOf_iff_prefix.mp hbegins)]
    rcases spelling_of_mem_symbols (List.mem_of_find?_eq_some hs) with ⟨o, t, ht, hsign⟩ | ⟨p, hsign⟩
    · obtain ⟨rfl, rfl⟩ := Prod.mk.inj hsign
      refine shape_operator (Operator.spelt_iff.mp ⟨t, ht, ?_⟩)
      rw [String.ofList_toList, Text.sameWord_self]
    · obtain ⟨rfl, rfl⟩ := Prod.mk.inj hsign
      exact p.spelt_canonical
  · exact ⟨c, rfl⟩

/-! ### Strings -/

/-- More of a body in front. -/
theorem Quoted.extend {piece : List Char} (h : Quoted rest (d :: piece)) (front : List Char)
    (hfront : ∀ cs, Body d cs → Body d (front ++ cs)) : Quoted rest (d :: (front ++ piece)) := by
  generalize htext : d :: piece = text at h
  cases h with
  | closed hd hbody =>
      obtain ⟨rfl, rfl⟩ := List.cons.inj htext
      rw [← List.append_assoc]
      exact .closed hd (hfront _ hbody)
  | unclosed hnil hd hbody =>
      obtain ⟨rfl, rfl⟩ := List.cons.inj htext
      exact .unclosed hnil hd (hfront _ hbody)
  | pending hnil hd hbody =>
      obtain ⟨rfl, rfl⟩ := List.cons.inj htext
      rw [← List.append_assoc]
      exact .pending hnil hd (hfront _ hbody)

/-- A string ends at its first delimiter that no backslash takes, or takes everything. -/
theorem quoted_stringLength (hd : isDelimiter d = true) (cs : List Char) :
    Quoted (cs.drop (stringLength d cs)) (d :: cs.take (stringLength d cs)) := by
  fun_induction stringLength d cs with
  | case1 => exact .unclosed rfl hd .nil
  | case2 => exact @Quoted.pending _ d [] rfl hd .nil
  | case3 c cs ih => exact ih.extend ['\\', c] fun _ => .escape
  | case4 cs => exact @Quoted.closed _ d [] hd .nil
  | case5 c cs hlast hpair hc ih =>
      exact ih.extend [c] fun _ => .char (ne_backslash hlast hpair) hc

/-! ### All tokens -/

/-- What is read has the shape of its kind. -/
theorem shape_read (c : Char) (cs : List Char) :
    Shape ((c :: cs).take (read c cs).size) ((c :: cs).drop (read c cs).size)
      (read c cs).kind := by
  unfold read
  split
  · exact quoted_stringLength ‹_› cs
  split
  · exact shape_number ‹_› cs
  split
  · rename_i hpoint
    exact hpoint ▸ shape_dot cs
  split
  · exact shape_word ‹_› cs
  · exact shape_symbol c cs

end Lexeme

theorem Cursor.next_shape (c : Cursor) (file : String) :
    Lexeme.Shape (c.next file).1.literal.toList (c.next file).2.ahead (c.next file).1.kind := by
  cases hs : c.skipTrivia.ahead with
  | nil => simp [next, hs, Lexeme.Shape]
  | cons first others => simpa [next, hs] using Lexeme.shape_read first others

/-- Every token of a text has the shape of its kind, in front of the rest of the text. -/
theorem tokens_shaped (source file : String) {t : Token} (ht : t ∈ tokens source file) :
    ∃ before rest, source.toList = before ++ (t.literal.toList ++ rest) ∧
      Place.byteSize before = t.span.start ∧ Lexeme.Shape t.literal.toList rest t.kind := by
  obtain ⟨us, vs, htokens⟩ := List.append_of_mem ht
  obtain ⟨c, hus, hvs⟩ := TokenStream.exists_cursor_of_append htokens (List.cons_ne_nil t vs)
  obtain rfl : (c.next file).1 = t := by
    have hhead := TokenStream.head?_toList file c
    rw [hvs] at hhead
    exact (Option.some.inj hhead).symm
  obtain ⟨piece, htext, hplace⟩ := hus.within
  obtain ⟨gap, hahead, hstart, -⟩ := c.next_located file
  have htext : source.toList = piece ++ c.ahead := htext
  refine ⟨piece ++ gap, (c.next file).2.ahead, ?_, ?_, c.next_shape file⟩
  · rw [htext, hahead, List.append_assoc]
  · have hoffset := congrArg Place.offset hstart
    rw [hplace, ← Place.past_append, Place.past_offset] at hoffset
    exact (hoffset.trans (Nat.zero_add _)).symm

/-- A backslash takes the quotation mark that would close the string, and the text ends. -/
theorem tokens_shaped_pending :
    (⟨.string, "'b\\'", ⟨8, 12⟩, 1, 9, "t.prw"⟩ : Token) ∈ tokens "5.AND.a 'b\\'" "t.prw" ∧
      ∃ before rest, "5.AND.a 'b\\'".toList = before ++ ("'b\\'".toList ++ rest) ∧
        Place.byteSize before = 8 ∧ Lexeme.Shape "'b\\'".toList rest .string := by
  have ht : (⟨.string, "'b\\'", ⟨8, 12⟩, 1, 9, "t.prw"⟩ : Token) ∈
      tokens "5.AND.a 'b\\'" "t.prw" := by
    decide +kernel
  exact ⟨ht, tokens_shaped "5.AND.a 'b\\'" "t.prw" ht⟩

end Clipper
