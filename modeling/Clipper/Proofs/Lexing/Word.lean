import Clipper.Proofs.Lexing.Scan

/-!
How the tokens of a text are spelled. A name is made of letters, digits and underscores and
is no reserved word; an illegal token is a single character.
-/

namespace Clipper

namespace Lexeme

theorem kind_numberTail_cases (cs : List Char) :
    (numberTail cs).kind = .date ∨ (numberTail cs).kind = .integer ∨
      (numberTail cs).kind = .float := by
  fun_cases numberTail <;> simp

theorem dottedWord_cases {s : String} {k : TokenKind} (h : dottedWord? s = some k) :
    k = .keyword .kwTrue ∨ k = .keyword .kwFalse ∨ ∃ o, k = .operator o := by
  rw [dottedWord?] at h
  split at h
  · exact .inl (Option.some.inj h).symm
  · exact .inr (.inl (Option.some.inj h).symm)
  · obtain ⟨o, _, rfl⟩ := Option.map_eq_some_iff.mp h
    exact .inr (.inr ⟨o, rfl⟩)

theorem symbols_cases {s : List Char × TokenKind} (h : s ∈ symbols) :
    s.2 ≠ .illegal ∧ s.2 ≠ .identifier ∧ s.2 ≠ .keyword .kwSelf := by
  have hall : ∀ s ∈ symbols, s.2 ≠ .illegal ∧ s.2 ≠ .identifier ∧ s.2 ≠ .keyword .kwSelf := by
    decide
  exact hall s h

theorem isWordPart_newline : isWordPart '\n' = false := by decide

theorem isWordPart_point : isWordPart '.' = false := by decide

theorem word_kind (cs : List Char) :
    (word cs).kind =
      match Keyword.ofWord? (String.ofList (cs.takeWhile isWordPart)) with
      | some k => .keyword k
      | none => .identifier := rfl

/-- Only a single character is illegal. -/
theorem size_read_of_illegal {c : Char} {cs : List Char} (h : (read c cs).kind = .illegal) :
    (read c cs).size = 1 := by
  unfold read at h ⊢
  split at h
  · cases h
  rw [if_neg ‹_›]
  split at h
  · rcases kind_numberTail_cases ((c :: cs).drop (digitRun (c :: cs))) with hk | hk | hk <;>
      simp [number, hk] at h
  rw [if_neg ‹_›]
  split at h
  · rw [if_pos ‹_›]
    unfold dot at h ⊢
    split at h
    · cases h
    rw [if_neg ‹_›]
    split at h
    · rfl
    split at h
    · rename_i hk
      rcases dottedWord_cases hk with rfl | rfl | ⟨o, rfl⟩ <;> cases h
    · simp [*]
  rw [if_neg ‹_›]
  split at h
  · rw [word_kind] at h
    split at h <;> cases h
  rw [if_neg ‹_›]
  unfold symbol at h ⊢
  split at h
  · rename_i hs
    exact absurd h (symbols_cases (List.mem_of_find?_eq_some hs)).1
  · simp [*]

/-- A name, or the receiver, is read as a word. -/
theorem read_eq_word {c : Char} {cs : List Char}
    (h : (read c cs).kind = .identifier ∨ (read c cs).kind = .keyword .kwSelf) :
    read c cs = word (c :: cs) := by
  unfold read at h ⊢
  split at h
  · simp at h
  rw [if_neg ‹_›]
  split at h
  · rcases kind_numberTail_cases ((c :: cs).drop (digitRun (c :: cs))) with hk | hk | hk <;>
      simp [number, hk] at h
  rw [if_neg ‹_›]
  split at h
  · unfold dot at h
    split at h
    · simp at h
    split at h
    · simp at h
    split at h
    · rename_i hk
      rcases dottedWord_cases hk with rfl | rfl | ⟨o, rfl⟩ <;> simp at h
    · simp at h
  rw [if_neg ‹_›]
  split at h
  · rw [if_pos ‹_›]
  unfold symbol at h
  split at h
  · rename_i hs
    have := symbols_cases (List.mem_of_find?_eq_some hs)
    simp_all
  · simp at h

/-- The characters that a word takes. -/
theorem take_word (cs : List Char) : cs.take (word cs).size = cs.takeWhile isWordPart :=
  (List.prefix_iff_eq_take.mp (List.takeWhile_prefix isWordPart)).symm

end Lexeme

namespace Trivia

/-- What is left begins with no blank. -/
theorem isBlank_of_skip {mode : Mode} {p : Place} {fresh : Bool} {text : List Char} {c : Char}
    {cs : List Char} (h : (skip mode p fresh text).ahead = c :: cs) : Text.isBlank c = false := by
  fun_induction skip mode p fresh text with
  | case1 => simp at h
  | case11 p fresh c' cs' _ _ _ hblank =>
      obtain ⟨rfl, -⟩ := List.cons.inj h
      simpa using hblank
  | _ => simp_all

end Trivia

namespace Token

/-- Spelled as a token of its kind is in a text. -/
structure Spelled (t : Token) : Prop where
  illegal : t.kind = .illegal → ∃ c, c ≠ '\n' ∧ t.literal = String.ofList [c]
  word : t.kind = .identifier ∨ t.kind = .keyword .kwSelf →
    ∀ c ∈ t.literal.toList, Lexeme.isWordPart c = true
  name : t.kind = .identifier → Keyword.ofWord? t.literal = none
  receiver : t.kind = .keyword .kwSelf → Keyword.ofWord? t.literal = some .kwSelf

variable {t : Token}

theorem Spelled.not_mem_of_word (h : t.Spelled)
    (hk : t.kind = .identifier ∨ t.kind = .keyword .kwSelf) {c : Char}
    (hc : Lexeme.isWordPart c = false) : c ∉ t.literal.toList := fun hmem => by
  simp [h.word hk c hmem] at hc

end Token

theorem Cursor.next_spelled {file : String} {c : Cursor} (h : ¬c.AtEnd file) :
    (c.next file).1.Spelled := by
  obtain ⟨gap, _, _, _, hnext⟩ := c.next_eq file
  cases hs : c.skipTrivia.ahead with
  | nil => exact absurd (atEnd_iff.mpr hs) h
  | cons first others =>
      simp only [hs] at hnext
      obtain ⟨hkind, hliteral, -⟩ := hnext
      have hword : (c.next file).1.kind = .identifier ∨ (c.next file).1.kind = .keyword .kwSelf →
          Lexeme.read first others = Lexeme.word (first :: others) ∧ (c.next file).1.literal =
            String.ofList ((first :: others).takeWhile Lexeme.isWordPart) := fun hk => by
        have hread := Lexeme.read_eq_word (hkind ▸ hk)
        exact ⟨hread, by rw [hliteral, hread, Lexeme.take_word]⟩
      have hlook : (c.next file).1.kind = .identifier ∨
          (c.next file).1.kind = .keyword .kwSelf → (c.next file).1.kind =
            match Keyword.ofWord? (c.next file).1.literal with
            | some k => .keyword k
            | none => .identifier := fun hk => by
        obtain ⟨hread, hl⟩ := hword hk
        rw [hl, hkind, hread, Lexeme.word_kind]
      refine ⟨fun hk => ⟨first, ?_, ?_⟩, fun hk d hd => ?_, fun hk => ?_, fun hk => ?_⟩
      · rintro rfl
        have := Trivia.isBlank_of_skip hs
        simp [Text.isBlank_newline] at this
      · rw [hliteral, Lexeme.size_read_of_illegal (hkind ▸ hk)]
        rfl
      · rw [(hword hk).2, String.toList_ofList] at hd
        exact List.all_eq_true.mp List.all_takeWhile d hd
      · have := hlook (.inl hk)
        rw [hk] at this
        split at this
        · cases this
        · assumption
      · have := hlook (.inr hk)
        rw [hk] at this
        split at this
        · cases this
          assumption
        · cases this

namespace Scans

theorem spelled {file : String} {c c' : Cursor} {ts : List Token} (h : Scans file c ts c') :
    ∀ t ∈ ts, t.Spelled := by
  induction h with
  | done => simp
  | token hend _ ih =>
      simp only [List.forall_mem_cons]
      exact ⟨Cursor.next_spelled hend, ih⟩

end Scans

theorem TokenStream.ofText_spelled (file source : String) :
    ∀ t ∈ (ofText file source).body, t.Spelled := by
  obtain ⟨_, hts, _, _⟩ := (ofText_iff file source _).mp rfl
  exact hts.spelled

/-! ### Names of files, and the end token -/

theorem Cursor.next_file (c : Cursor) (file : String) : (c.next file).1.file = file := by
  cases h : c.skipTrivia.ahead <;> simp [next, h]

theorem Cursor.literal_of_atEnd {file : String} {c : Cursor} (h : c.AtEnd file) :
    (c.next file).1.literal = "" := by
  simp [next, atEnd_iff.mp h]

theorem Scans.file_eq {file : String} {c c' : Cursor} {ts : List Token}
    (h : Scans file c ts c') : ∀ t ∈ ts, t.file = file := by
  induction h with
  | done => simp
  | @token c _ _ _ _ ih =>
      simp only [List.forall_mem_cons]
      exact ⟨c.next_file file, ih⟩

namespace TokenStream

theorem ofText_file (file source : String) : ∀ t ∈ (ofText file source).body, t.file = file := by
  obtain ⟨_, hts, _, _⟩ := (ofText_iff file source _).mp rfl
  exact hts.file_eq

theorem ofText_last (file source : String) :
    (ofText file source).last.file = file ∧ (ofText file source).last.literal = "" := by
  obtain ⟨c, _, hend, hlast⟩ := (ofText_iff file source _).mp rfl
  exact hlast ▸ ⟨c.next_file file, Cursor.literal_of_atEnd hend⟩

end TokenStream

end Clipper
