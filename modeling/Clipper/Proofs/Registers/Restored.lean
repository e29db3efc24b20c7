import Clipper.Proofs.Reading.Text
import Clipper.Proofs.Registers.Mirror

/-!
What the machine has noted when a text has been read: no statement and no round of a class body
came off without a token, and none left the registers other than it found them.
-/

namespace Clipper.Machine

/-- Reads a text. -/
def ofSource (source file : String) : Program × Machine :=
  program.run (.ofStream (.ofText file source))

theorem fair_ofStream {s : TokenStream} (hs : s.Closed) : (ofStream s).Fair where
  sound := Reader.sound_ofStream hs
  statements := fun _ hp => nomatch hp
  members := fun _ hp => nomatch hp

theorem follows_program : Follows .idle .idle program Grammar.program := by
  have h := mirrors_expression Grammar.maxDepth 0 (Nat.le_refl _)
  have hstatements : Follows .idle .idle
      (repeated (fun w => !w.reader.atEnd) (statement (expression Grammar.maxDepth)))
      (Grammar.repeated (!·.atEnd)
        (Grammar.statement (Grammar.expression Grammar.maxDepth) .file)) :=
    .repeated (fun _ _ => rfl) fun w hw hg hm =>
      ends_statement (g := .idle) h rfl hw hg (by simpa using hm)
  exact hstatements.map Program.mk

/-- Reading a text comes to its end, with the registers as they were at first and with faults
being reported again. Every statement on the way, inside whatever it stood, took a token and left
the registers as it found them, and every round of a class body took a token. -/
theorem statements_restore (source file : String) :
    (⟨(ofSource source file).1, (ofSource source file).2.reader.faults.toList⟩ : Parsed) =
        Parsed.ofSource source file ∧
      (∀ p ∈ (ofSource source file).2.statements, p.Takes ∧ p.Restores) ∧
      (∀ p ∈ (ofSource source file).2.members, p.Takes) ∧
      (ofSource source file).2.reader.atEnd = true ∧
      (ofSource source file).2.registers = .idle ∧
      (ofSource source file).2.reader.muted = false := by
  have hclosed := TokenStream.closed_ofText file source
  obtain ⟨hrun, hregisters, hfair⟩ := follows_program (fair_ofStream hclosed) rfl
  obtain ⟨ss, hss, -⟩ := (Grammar.run_program (Reader.sound_ofStream hclosed)).mp hrun
  have hend : (program.run (ofStream (.ofText file source))).2.reader.atEnd = true := by
    simpa using hss.stopped
  refine ⟨?_, hfair.statements, hfair.members, hend, hregisters, hss.unmuted rfl⟩
  change _ = Parsed.ofStream (.ofText file source)
  rw [Parsed.ofStream, show Grammar.program.run (Reader.ofStream (.ofText file source)) = _ from hrun]
  rfl

/-- A class with two members, and in its method a conditional over one statement. -/
example : (fun w : Machine => (w.statements.length, w.members.length))
    (ofSource "Class P\nData a\nMethod M()\nIf a\nb\nEndIf\nEndClass" "t.prw").2 = (3, 2) := by
  decide +kernel

end Clipper.Machine
