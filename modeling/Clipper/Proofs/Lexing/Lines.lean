import Clipper.Proofs.Lexing.Append

/-!
Line by line. Whatever a text ends in, as long as it is neither a string nor a block comment,
the end of a line closes it: the tokens in front are those of the text alone, and behind the
line end the lexer begins anew.
-/

namespace Clipper

/-- The token so many bytes and lines further on. -/
def Token.moved (bytes lines : Nat) (t : Token) : Token :=
  { t with
    span := ⟨t.span.start + bytes, t.span.stop + bytes⟩
    line := t.line + lines }

/-- Behind a text and a line end. -/
theorem Token.behind_line (s : String) :
    behind (s.toList ++ ['\n']) = moved (s.utf8ByteSize + 1) (s.toList.count '\n' + 1) := by
  have hnewline : Place.byteSize ['\n'] = 1 := by decide
  funext t
  rw [behind, moved, Place.byteSize_append, Place.byteSize_toList, hnewline, List.count_append]
  simp [Nat.add_comm]

/-- In front of a line end skipping begins anew behind it. -/
theorem Trivia.skip_newline (p : Place) (cs : List Char) :
    skip .blank p true ('\n' :: cs) = skip .blank (p.step '\n') true cs := by
  rw [skip_single (by simp) (by simp) (by simp), if_pos Text.isBlank_newline]
  rfl

/-- The tokens of two texts with a line end between them. -/
theorem TokenStream.ofText_line {file p : String} (h : EndsOutside file p) (q : String) :
    ofText file (p ++ "\n" ++ q) =
      ⟨(ofText file p).body ++ (ofText file q).body.map (Token.behind (p.toList ++ ['\n'])),
        (ofText file q).last.behind (p.toList ++ ['\n'])⟩ := by
  have hq : ("\n" ++ q).toList = '\n' :: q.toList := by simp
  obtain ⟨c, hp, hskip⟩ := h.exists_drained (q := "\n" ++ q) (.inr (by rw [hq]; rfl))
  rw [← String.append_assoc] at hp
  refine ofText_of_drained hp (hskip.trans ?_)
  rw [hq, Trivia.skip_newline]
  have hplace : (Place.start.past p.toList).step '\n' = Place.start.behind (p.toList ++ ['\n']) := by
    rw [← Place.past_start (by simp), Place.past_append]
    rfl
  rw [hplace]
  rfl

/-- The tokens of a text, a line end and another text are those of the first text but for its
end, and those of the second, further on by the bytes and the line ends in front of them. -/
theorem tokens_line {file s₁ : String} (h : EndsOutside file s₁) (s₂ : String) :
    tokens (s₁ ++ "\n" ++ s₂) file =
      (tokens s₁ file).dropLast ++
        (tokens s₂ file).map
          (Token.moved (s₁.utf8ByteSize + 1) (s₁.toList.count '\n' + 1)) := by
  rw [tokens, TokenStream.ofText_line h, Token.behind_line]
  simp [tokens, TokenStream.toList]

/-- In front of the line end are a directive, half an operator, half a date, a point alone, an
illegal character and a comment with a quotation mark in it. -/
theorem tokens_line_comment :
    EndsOutside "t.prw" "#x\n: 1/2 . ~ // \"" ∧
      tokens ("#x\n: 1/2 . ~ // \"" ++ "\n" ++ "#y\n= .5") "t.prw" =
        (tokens "#x\n: 1/2 . ~ // \"" "t.prw").dropLast ++
          (tokens "#y\n= .5" "t.prw").map (Token.moved 18 2) := by
  have h : EndsOutside "t.prw" "#x\n: 1/2 . ~ // \"" := ⟨by decide, by decide +kernel⟩
  have hsize : "#x\n: 1/2 . ~ // \"".utf8ByteSize = 17 := by decide
  have htokens := tokens_line h "#y\n= .5"
  rw [hsize] at htokens
  exact ⟨h, htokens⟩

end Clipper
