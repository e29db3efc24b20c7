import Clipper.Proofs.Lexing.Word
import Clipper.Proofs.Likeness.Program
import Clipper.Proofs.Likeness.Relabelling
import Clipper.Proofs.Reading.FirstToken

/-!
Texts that differ in their spacing. Only which tokens stand on one line with the token before
them tells a reader anything about the layout of a text; comments, blanks, illegal characters
and the case of reserved words tell it nothing.
-/

namespace Clipper

namespace Token

/-- The token without its place, and without its spelling where the kind says enough. -/
def shape (t : Token) : Token :=
  { t with
    literal := if t.kind.hasContent then t.literal else ""
    span := ⟨0, 0⟩
    line := 0
    column := 0 }

/-- The same word, however it is spelled. -/
def SameWord (t u : Token) : Prop :=
  t.kind = u.kind ∧ (t.kind.hasContent = true → t.literal = u.literal)

instance : DecidableRel SameWord := fun t u =>
  inferInstanceAs (Decidable (t.kind = u.kind ∧ (t.kind.hasContent = true → t.literal = u.literal)))

theorem shape_eq {t u : Token} (h : t.SameWord u) (hfile : t.file = u.file) :
    t.shape = u.shape := by
  obtain ⟨hkind, hliteral⟩ := h
  have hl : (if t.kind.hasContent then t.literal else "") =
      if u.kind.hasContent then u.literal else "" := by
    rw [← hkind]
    split
    · exact hliteral ‹_›
    · rfl
  simp [shape, hkind, hfile, ← hl]

end Token

/-- Without the places and spellings of its tokens. -/
def Program.shape (p : Program) : Program := (Relabelling.all Token.shape).program p

namespace Fault

/-- Without the places and spellings of its tokens. The name of an undeclared receiver is a
spelling too. -/
def shape : Fault → Fault
  | expected what found => expected what found.shape
  | unclosed closer opener found => unclosed closer opener.shape found.shape
  | notAStatement found => notAStatement found.shape
  | notAnExpression found => notAnExpression found.shape
  | lineGoesOn found => lineGoesOn found.shape
  | notAssignable target => notAssignable target.shape
  | illegalCharacter token => illegalCharacter token.shape
  | tooDeep found => tooDeep found.shape
  | otherCounter found counter => otherCounter found.shape counter.shape
  | integerTooLarge token => integerTooLarge token.shape
  | malformedNumber token => malformedNumber token.shape
  | undeclared name token =>
      undeclared (if token.kind.hasContent then name else "") token.shape
  | redeclared name token first => redeclared name token.shape first.shape

end Fault

namespace Correspondence

/-- The same words in two texts, each spelled as its kind wants it. -/
def spacing : Correspondence where
  token t u := t.SameWord u ∧ t.file = u.file ∧ t.isEnd = false ∧
    (t.literal.isEmpty = false ∧ u.literal.isEmpty = false) ∧ t.Spelled ∧ u.Spelled
  ending t u := t.SameWord u ∧ t.file = u.file ∧ t.isEnd = true
  guards _ := True
  beyond := []
  earlier := []
  earlier' := []
  kind_eq := fun h => h.1.1
  literal_eq := fun h => h.1.2
  isEnd_token := fun h => h.2.2.1
  isEnd_ending := fun h => h.2.2
  ending_declares := fun h => .inl (by simpa [Token.isEnd, ← h.1.1] using h.2.2)
  guards_close := fun h _ => .inl (by simpa [Token.isEnd, ← h.1.1] using h.2.2)
  guards_append := fun _ => id
  guards_function := fun _ => trivial
  guards_class := fun _ => trivial

theorem shape_of_spacing {t u : Token} (h : spacing.Meets t u) :
    t.shape = u.shape ∧ t.file = u.file := by
  rcases h with h | h
  · exact ⟨Token.shape_eq h.1 h.2.1, h.2.1⟩
  · exact ⟨Token.shape_eq h.1 h.2.1, h.2.1⟩

theorem relabels_spacing :
    spacing.Relabels (.all Token.shape) (.all Token.shape) where
  literal h := h.2.2.2.1
  written h := (shape_of_spacing (.inl h)).1
  placed h := (shape_of_spacing h).1
  missing h := by
    have hfile := (shape_of_spacing h).2
    simp [Relabelling.name, Relabelling.all, Name.missing, Name.isMissing, Name.text,
      Token.implied, Token.shape, hfile]
  receiver h := by
    have hfile := (shape_of_spacing (.inl h)).2
    simp [Relabelling.all, Token.implied, Token.shape, hfile, TokenKind.hasContent]

theorem fault_shape_of_spacing {f f' : Fault} (h : spacing.Faults f f') : f.shape = f'.shape := by
  cases h with
  | expected _ h | notAStatement h | notAnExpression h | lineGoesOn h | notAssignable h
  | tooDeep h => simp [Fault.shape, (shape_of_spacing h).1]
  | unclosed _ h h' => simp [Fault.shape, (shape_of_spacing (.inl h)).1, (shape_of_spacing h').1]
  | otherCounter h _ h' =>
      simp [Fault.shape, (shape_of_spacing (.inl h)).1, (shape_of_spacing (.inl h')).1]
  | integerTooLarge h | malformedNumber h =>
      simp [Fault.shape, (shape_of_spacing (.inl h)).1]

end Correspondence

/-- The same words in both texts, and behind the first of them the same line breaks. -/
structure TokenStream.SameWords (s s' : TokenStream) : Prop where
  words : List.Forall₂ Token.SameWord s.legal s'.legal
  joints : Correspondence.joints s.legal = Correspondence.joints s'.legal

namespace TokenStream

variable {source source' file : String}

/-- Words of two texts of one file, and what holds of all words. -/
theorem forall₂_ofText {R : Token → Token → Prop} {ts us : List Token} (h : List.Forall₂ R ts us)
    (hts : ∀ t ∈ ts, t ∈ (ofText file source).body)
    (hus : ∀ u ∈ us, u ∈ (ofText file source').body) :
    List.Forall₂ (fun t u => R t u ∧ t.file = u.file ∧ t.isEnd = false ∧
      (t.literal.isEmpty = false ∧ u.literal.isEmpty = false) ∧ t.Spelled ∧ u.Spelled) ts us := by
  have hword : ∀ {source : String}, ∀ t ∈ (ofText file source).body,
      t.file = file ∧ t.isEnd = false ∧ t.literal.isEmpty = false ∧ t.Spelled := by
    intro source t ht
    have hs := closed_ofText file source
    exact ⟨ofText_file file source t ht, hs.body_open t ht, hs.body_written t ht,
      ofText_spelled file source t ht⟩
  rw [List.forall₂_iff_zip]
  refine ⟨h.length_eq, fun {t u} hmem => ?_⟩
  obtain ⟨hfile, hopen, hwritten, hspelled⟩ := hword t (hts t (List.of_mem_zip hmem).1)
  obtain ⟨hfile', -, hwritten', hspelled'⟩ := hword u (hus u (List.of_mem_zip hmem).2)
  exact ⟨(List.forall₂_iff_zip.mp h).2 hmem, hfile.trans hfile'.symm, hopen,
    ⟨hwritten, hwritten'⟩, hspelled, hspelled'⟩

/-- Two texts of one file end alike. -/
theorem last_ofText (source source' file : String) :
    (ofText file source).last.kind = (ofText file source').last.kind ∧
      (ofText file source).last.literal = (ofText file source').last.literal ∧
      (ofText file source).last.file = (ofText file source').last.file ∧
      (ofText file source).last.isEnd = true := by
  have hs := (closed_ofText file source).last_isEnd
  have hs' := (closed_ofText file source').last_isEnd
  obtain ⟨hfile, hliteral⟩ := ofText_last file source
  obtain ⟨hfile', hliteral'⟩ := ofText_last file source'
  refine ⟨?_, hliteral.trans hliteral'.symm, hfile.trans hfile'.symm, hs⟩
  exact (beq_iff_eq.mp hs).trans (beq_iff_eq.mp hs').symm

end TokenStream

namespace Parsed

open Correspondence Grammar

variable {source source' file : String}

theorem forall₂_spacing
    (h : (TokenStream.ofText file source).SameWords (.ofText file source')) :
    List.Forall₂ spacing.token (TokenStream.ofText file source).legal
      (TokenStream.ofText file source').legal :=
  TokenStream.forall₂_ofText h.words (fun _ => TokenStream.mem_body_of_legal)
    fun _ => TokenStream.mem_body_of_legal

theorem ending_spacing (source source' file : String) :
    spacing.ending (TokenStream.ofText file source).last (TokenStream.ofText file source').last := by
  obtain ⟨hkind, hliteral, hfile, hend⟩ := TokenStream.last_ofText source source' file
  exact ⟨⟨hkind, fun _ => hliteral⟩, hfile, hend⟩

/-- The same words are read to the same tree, and the same is wrong with them. -/
theorem alike_spacing
    (h : (TokenStream.ofText file source).SameWords (.ofText file source')) :
    Part.Alike spacing false (.statements (ofSource source file).program.statements)
        (.statements (ofSource source' file).program.statements) ∧
      List.Forall₂ spacing.Faults
        ((ofSource source file).faults.filter (·.illegal?.isNone))
        ((ofSource source' file).faults.filter (·.illegal?.isNone)) := by
  have hends : ∀ {t u}, spacing.ending t u → u.isEnd = true := fun h => by
    simpa [Token.isEnd, ← h.1.1] using h.2.2
  obtain ⟨halike, hfaults⟩ := alike trivial hends rfl ⟨rfl, rfl⟩ (forall₂_spacing h) h.joints
    (ending_spacing source source' file)
  exact ⟨statements_of_forall₂ halike, hfaults⟩

end Parsed

end Clipper
