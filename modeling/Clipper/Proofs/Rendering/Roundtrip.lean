import Clipper.Proofs.Rendering.Forms
import Clipper.Proofs.Rendering.Styles

/-!
A program rendered and read again. It is the same program over the tokens of the new text, and it is
rendered as the same text, unless a header runs into its block: a conditional or a loop that is an
operand stands in parentheses, where a line may go on on the next.
-/

namespace Clipper

open Layout Canonical Grammar

theorem Program.tells_render {p : Program} {style : Style} {is : List Element}
    (h : Tells style .fresh .fresh (topLevel none p.statements) is) :
    Worded (p.render style).toList is := by
  have hnil : Stance.fresh.Permits style 0 [] [] := Worded.nil
  have hall := h 0 [] [] hnil
  rw [List.append_nil, List.append_nil] at hall
  rw [Parsed.toList_render]
  exact hall

/-- A program such as a text can have, rendered in any style, is read again. -/
theorem Program.render_reread {p : Program}
    (h : ∀ s ∈ p.statements, Part.Legible false (.statement s)) (hheaders : p.headersEnd = true)
    (style : Style) (file : String) :
    (Parsed.ofSource (p.render style) file).TooDeep ∨
      (Parsed.ofSource (p.render style) file).faults = [] ∧
        p.Same (Parsed.ofSource (p.render style) file).program := by
  have hrereads : ∀ s ∈ p.statements, RereadsStmt style false s := fun s hs => rereadsPart (h s hs)
  obtain ⟨is, his, hbody⟩ := exists_topLevel hrereads
  have hclosed := TokenStream.closed_ofText file (p.render style)
  obtain ⟨hlegal, l, hl⟩ :=
    (Program.tells_render his).tokens file (.ofText (p.render style).toList) rfl
  obtain ⟨ss, hss, hread⟩ := hbody.reads hl
  obtain ⟨m, l', hm⟩ := hread .file 1 (TokenStream.ofText file (p.render style)).last []
    ⟨rfl, by simp [Context.file], hheaders⟩ rfl (.inl hclosed.last_isEnd)
  refine (parsed_of_derives hclosed hlegal hm).imp id fun hread => ?_
  obtain ⟨hfaults, hstatements⟩ := hread
  refine ⟨hfaults, ?_⟩
  rw [← hstatements] at hss
  exact hss

/-- A program that is read without an error and rendered in any style is read as the same program,
and rendered as the same text again, unless it is nested too deeply. -/
theorem Parsed.program_render {source file : String} (hok : (ofSource source file).isOk = true)
    (hpending : ∀ t ∈ tokens source file, t.isPending = false)
    (hheaders : (ofSource source file).program.headersEnd = true) (style : Style) (file' : String) :
    (ofSource ((ofSource source file).program.render style) file').TooDeep ∨
      (ofSource ((ofSource source file).program.render style) file').diagnostics = [] ∧
      (ofSource source file).program.Same
        (ofSource ((ofSource source file).program.render style) file').program ∧
      (ofSource ((ofSource source file).program.render style) file').program.render style =
        (ofSource source file).program.render style := by
  refine (Program.render_reread (legible_of_isOk hok hpending) hheaders style file').imp id
    fun hread => ?_
  obtain ⟨hfaults, hsame⟩ := hread
  exact ⟨by rw [diagnostics, hfaults]; rfl, hsame, hsame.render style⟩

/-- A method with a loop, and a conditional that is an operand. -/
def loopSource : String :=
  "Class a\nMethod b(c)\nFor i = 1 To c\n::d := \x7bi\x7d\nNext i\nEndClass\n" ++
    "e := 2 * If f\nReturn\nEndIf"

theorem Parsed.program_render_loop :
    (ofSource loopSource "t.prw").isOk = true ∧
      (∀ t ∈ tokens loopSource "t.prw", t.isPending = false) ∧
      (ofSource loopSource "t.prw").program.headersEnd = true ∧
      (ofSource ((ofSource loopSource "t.prw").program.render {}) "u.prw").diagnostics = [] ∧
      (ofSource loopSource "t.prw").program.Same
        (ofSource ((ofSource loopSource "t.prw").program.render {}) "u.prw").program ∧
      (ofSource ((ofSource loopSource "t.prw").program.render {}) "u.prw").program.render {} =
        (ofSource loopSource "t.prw").program.render {} := by
  have hok : (ofSource loopSource "t.prw").isOk = true := by decide +kernel
  have hpending : ∀ t ∈ tokens loopSource "t.prw", t.isPending = false := by decide +kernel
  have hheaders : (ofSource loopSource "t.prw").program.headersEnd = true := by decide +kernel
  have hfaults :
      (ofSource ((ofSource loopSource "t.prw").program.render {}) "u.prw").faults = [] := by
    decide +kernel
  refine ⟨hok, hpending, hheaders,
    (program_render hok hpending hheaders {} "u.prw").resolve_left ?_⟩
  rintro ⟨t, ht⟩
  simp [hfaults] at ht

/-- A conditional that is an operand, with a parenthesis where its block begins. -/
def operandSource : String := "If c\n    a + b\nEndIf + 1\n"

/-- A string at the end of the text, with a backslash where it would be closed. -/
def openSource : String := "x := \"abc\\"

/-- A header that runs into its block becomes another one, and a string that is left open takes the
delimiter that closes it in canonical form. -/
theorem Parsed.render_unsteady :
    ((ofSource operandSource "t.prw").isOk = true ∧
      (∀ t ∈ tokens operandSource "t.prw", t.isPending = false) ∧
      (ofSource ((ofSource operandSource "t.prw").program.render {}) "t.prw").faults = [] ∧
      (ofSource ((ofSource operandSource "t.prw").program.render {}) "t.prw").program.render {} ≠
        (ofSource operandSource "t.prw").program.render {}) ∧
    (ofSource openSource "t.prw").isOk = true ∧
      (ofSource openSource "t.prw").program.headersEnd = true ∧
      (ofSource ((ofSource openSource "t.prw").program.render {}) "t.prw").faults = [] ∧
      (ofSource ((ofSource openSource "t.prw").program.render {}) "t.prw").program.render {} ≠
        (ofSource openSource "t.prw").program.render {} := by
  refine ⟨⟨?_, ?_, ?_, ?_⟩, ?_, ?_, ?_, ?_⟩ <;> decide +kernel

end Clipper
