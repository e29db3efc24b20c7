import Clipper.Proofs.Rendering.Twin

/-!
What a token may be written in front of. Behind a word, a number or a string there stands a
blank, a line end, a bracket or another of the few signs that a text in canonical form has there;
behind a sign there stands anything that does not make a longer sign of it.
-/

namespace Clipper

namespace TokenKind

def isSign : TokenKind → Bool
  | operator _ | punctuation _ => true
  | _ => false

end TokenKind

namespace Lexeme

/-- What stands behind a word, a number or a string in canonical form. -/
def shutters : List Char := [' ', '\n', '(', ')', '[', ']', '\x7d', ',', ':']

def Shut (rest : List Char) : Prop := ∀ d ∈ rest.head?, d ∈ shutters

theorem stops_of_mem_shutters {d : Char} (h : d ∈ shutters) : Stops d := by
  simp only [shutters] at h
  fin_cases h <;> exact ⟨by decide, by decide, by decide, by decide, by decide⟩

variable {c d : Char} {cs rest text : List Char} {k : TokenKind} {p : Place} {fresh : Bool}

/-! ### Signs -/

theorem not_glues (h : ∀ s ∈ symbols, s.1.head? = some c → d ∉ s.1.tail) : glues c d = false := by
  refine List.any_eq_false.mpr fun s hs => ?_
  rw [Bool.and_eq_true, beq_iff_eq, List.contains_iff_mem]
  exact fun hc => h s hs hc.1 hc.2

/-- Only two colons make a longer sign with what may stand behind a word. -/
theorem eq_colon_of_glues (hd : d ∈ shutters) (h : glues c d = true) : c = ':' := by
  have hall : ∀ s ∈ symbols,
      (s.1.head? == some ':' || s.1.tail.all fun d => !shutters.contains d) = true := by
    decide
  obtain ⟨s, hs, hc⟩ := List.any_eq_true.mp h
  rw [Bool.and_eq_true, beq_iff_eq, List.contains_iff_mem] at hc
  rcases Bool.or_eq_true .. ▸ hall s hs with hhead | htail
  · exact Option.some.inj (hc.1.symm.trans (beq_iff_eq.mp hhead))
  · have := List.all_eq_true.mp htail d hc.2
    simp [hd] at this

theorem isSign_symbol (cs : List Char) :
    (symbol cs).kind = .illegal ∨ (symbol cs).kind.isSign = true := by
  have hall : ∀ s ∈ symbols, s.2.isSign = true := by decide
  unfold symbol
  split
  · rename_i hs
    exact .inr (hall _ (List.mem_of_find?_eq_some hs))
  · exact .inl rfl

/-- A sign is read as one. -/
theorem read_mark (hc : c ∈ marks) (hne : c ≠ '"' ∧ c ≠ '\x27' ∧ c ≠ '.') (cs : List Char) :
    read c cs = symbol (c :: cs) := by
  have hdigit : c.isDigit = false := by
    have hall : marks.all (fun c => !c.isDigit) = true := by decide
    simpa using List.all_eq_true.mp hall c hc
  simp [read, isDelimiter, hne.1, hne.2.1, hne.2.2, hdigit, not_isWordStart_of_mem hc]

/-- A word, a number or a string does not begin with a sign. -/
theorem ne_of_read (hread : (read c cs).kind = k) (hk : k ≠ .illegal) (hsign : k.isSign = false)
    (hd : d ∈ marks) (hne : d ≠ '"' ∧ d ≠ '\x27' ∧ d ≠ '.') : c ≠ d := by
  rintro rfl
  rw [read_mark hd hne] at hread
  rcases isSign_symbol (c :: cs) with h | h
  · exact hk (hread.symm.trans h)
  · rw [hread, hsign] at h
    cases h

theorem fronts_symbol {s : List Char × TokenKind} (hs : s ∈ symbols) (hhash : s.1.head? ≠ some '#')
    (hglues : ∀ c ∈ s.1.head?, ∀ d ∈ rest.head?, glues c d = false)
    (hslash : s.1.head? = some '/' → ∀ d ∈ rest.head?, d ≠ '/' ∧ d ≠ '*') :
    Fronts s.2 s.1 rest := by
  obtain ⟨c, cs, htext, hbegins, hread⟩ := reads_symbol hs
  have hhead : s.1.head? = some c := by rw [htext]; rfl
  have hself : read c cs = ⟨s.2, cs.length + 1⟩ := by simpa using hread [] (by simp [Apart])
  have hmark := symbols_head hs
  rw [hhead] at hmark hhash
  simp only [Option.all_some, Bool.and_eq_true, decide_eq_true_eq, Bool.not_eq_true', bne_iff_ne,
    isDelimiter, Bool.or_eq_false_iff, beq_eq_false_iff_ne] at hmark
  obtain ⟨⟨⟨⟨⟨⟨hmark, hdelimiter⟩, _⟩, hpoint⟩, _⟩, _⟩, _⟩ := hmark
  have hne : c ≠ '"' ∧ c ≠ '\x27' ∧ c ≠ '.' := ⟨hdelimiter.1, hdelimiter.2, hpoint⟩
  refine ⟨fun p fresh => ?_, c, cs, htext, ?_⟩
  · rw [htext, List.cons_append]
    refine Trivia.skip_begins hbegins (fun _ => ?_) fun hc => hslash (hhead.trans (congrArg _ hc))
    rintro rfl
    exact hhash rfl
  · rw [read_mark hmark hne, ← List.cons_append, symbol_append (.inr (hglues c hhead)),
      ← read_mark hmark hne, hself]

/-! ### Words, numbers and strings -/

theorem kind_ne_illegal_of_spells (h : Spells k text) : k ≠ .illegal := by
  cases h <;> simp

/-- A word, a number or a string ends where a text in canonical form goes on. -/
theorem fronts_of_spells (h : Spells k text) (hsign : k.isSign = false) (hrest : Shut rest) :
    Fronts k text rest := by
  obtain ⟨c, cs, htext, hbegins, hread⟩ := h.reads
  have hself : read c cs = ⟨k, cs.length + 1⟩ := by simpa using hread [] (by simp [Apart])
  have hne : ∀ d ∈ marks, d ≠ '"' ∧ d ≠ '\x27' ∧ d ≠ '.' → c ≠ d := fun d =>
    ne_of_read (congrArg Lexeme.kind hself) (kind_ne_illegal_of_spells h) hsign
  refine ⟨fun p fresh => ?_, c, cs, htext, ?_⟩
  · rw [htext, List.cons_append]
    exact Trivia.skip_begins hbegins (fun _ => hne '#' (by decide) (by decide))
      fun hc => absurd hc (hne '/' (by decide) (by decide))
  · cases hc : isDelimiter c with
    | true =>
        have hkind : k = .string := by
          rw [read_delimiter hc] at hself
          exact (congrArg Lexeme.kind hself).symm
        subst hkind
        cases h with
        | @string d ds hd hds =>
            obtain ⟨rfl, rfl⟩ := List.cons.inj htext
            rw [read_delimiter hc, List.append_assoc, List.singleton_append,
              stringLength_body (ne_of_isDelimiter hd).1 hds]
            simp
    | false =>
        rw [read_append hc (.inr fun d hd => stops_of_mem_shutters (hrest d hd))
          (.inr fun d hd => ?_), hself]
        refine Bool.eq_false_iff.mpr fun hglues => ?_
        exact hne ':' (by decide) (by decide) (eq_colon_of_glues (hrest d hd) hglues)

end Lexeme

end Clipper
