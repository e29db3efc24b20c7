import Clipper.Proofs.Lexing.Append
import Clipper.Proofs.Likeness.Program
import Clipper.Proofs.Likeness.Relabelling
import Clipper.Proofs.Reading.FirstToken

/-!
A text with a declaration behind it. Whatever is wrong with the text, if it leaves no
conditional or loop open outside all routines, both are read as if each stood alone: the words
that declare a function or a class close whatever is open, as the end of the text does.
-/

namespace Clipper

open Correspondence Grammar

/-! ### Tokens further on -/

namespace Token

variable {cs : List Char}

@[simp] theorem kind_behind (t : Token) : (t.behind cs).kind = t.kind := rfl

@[simp] theorem literal_behind (t : Token) : (t.behind cs).literal = t.literal := rfl

theorem endLine_behind (t : Token) : (t.behind cs).endLine = cs.count '\n' + t.endLine :=
  Nat.add_assoc ..

theorem joints_behind (cs : List Char) (ts : List Token) :
    joints (ts.map (Token.behind cs)) = joints ts := by
  unfold joints
  rw [← List.map_tail, List.zipWith_map]
  refine congrArg (List.zipWith · ts ts.tail) (funext fun t => funext fun u => ?_)
  rw [endLine_behind, Bool.eq_iff_iff, beq_iff_eq, beq_iff_eq]
  exact Nat.add_left_cancel_iff

end Token

theorem TokenStream.legal_append {file p : String} (h : EndsLine file p) (q : String) :
    (ofText file (p ++ q)).legal =
      (ofText file p).legal ++ (ofText file q).legal.map (Token.behind p.toList) := by
  rw [ofText_append h, legal, List.filter_append, List.filter_map]
  rfl

/-! ### The text in front -/

/-- The text and what stands behind it, the first token of which declares something. -/
def Correspondence.front (s : TokenStream) (u : Token) (us : List Token)
    (hu : u.isAny declaring = true) : Correspondence where
  token t t' := t = t' ∧ t ∈ s.legal ∧ t.isEnd = false
  ending t t' := t = s.last ∧ t' = u ∧ t.isEnd = true
  guards cs := ∀ k ∈ declaring, k ∈ cs
  beyond := us
  earlier := []
  earlier' := []
  kind_eq := kind_of_legal
  literal_eq := fun h _ => literal_of_legal h
  isEnd_token := isEnd_of_legal
  isEnd_ending := fun h => h.2.2
  ending_declares := fun h => .inr (h.2.1 ▸ hu)
  guards_close := fun h hg => by
    obtain ⟨k, hk, hkind⟩ := isKeyword_of_isAny (h.2.1 ▸ hu)
    exact .inr (by simpa [Token.isAny, TokenKind.keyword?, hkind] using hg k hk)
  guards_append := fun ds hg k hk => List.mem_append_right ds (hg k hk)
  guards_function := fun cs k hk => List.mem_append_left cs (by revert k; decide)
  guards_class := fun cs k hk => List.mem_append_left cs (by revert k; decide)

namespace Relabelling

/-- What is placed at an offset is placed at a token instead. -/
def moved (offset : Nat) (u : Token) : Relabelling :=
  ⟨id, fun t => if t.span.start = offset then u else t⟩

end Relabelling

theorem relabels_front {s : TokenStream} {u : Token} {us : List Token}
    {hu : u.isAny declaring = true} {offset : Nat} (hs : s.Closed)
    (hlast : s.last.span.start = offset) (hbody : ∀ t ∈ s.body, t.span.start < offset) :
    (front s u us hu).Relabels (.moved offset u) (.all id) where
  literal h := by
    have := hs.body_written _ (TokenStream.mem_body_of_legal h.2.1)
    exact ⟨this, h.1 ▸ this⟩
  written h := h.1
  placed h := by
    rcases h with ⟨rfl, ht, -⟩ | ⟨rfl, rfl, -⟩
    · exact if_neg (hbody _ (TokenStream.mem_body_of_legal ht)).ne
    · exact if_pos hlast
  missing h := by
    rcases h with ⟨rfl, ht, -⟩ | ⟨rfl, rfl, -⟩
    · have hne := (hbody _ (TokenStream.mem_body_of_legal ht)).ne
      exact congrArg Name.missing (if_neg hne)
    · exact Eq.trans (congrArg Name.missing (if_pos hlast)) rfl
  receiver h := by rw [h.1]; rfl

/-! ### The text behind -/

/-- A text alone and behind another one. -/
def Correspondence.back (cs : List Char) (earlier : List Fault) : Correspondence where
  token t t' := t' = t.behind cs ∧ t.isEnd = false ∧ t.literal.isEmpty = false
  ending t t' := t' = t.behind cs ∧ t.isEnd = true
  guards _ := True
  beyond := []
  earlier := []
  earlier' := earlier
  kind_eq := fun h => by rw [h.1]; rfl
  literal_eq := fun h _ => by rw [h.1]; rfl
  isEnd_token := fun h => h.2.1
  isEnd_ending := fun h => h.2
  ending_declares := fun h => .inl (by rw [h.1]; exact h.2)
  guards_close := fun h _ => .inl (by rw [h.1]; exact h.2)
  guards_append := fun _ => id
  guards_function := fun _ => trivial
  guards_class := fun _ => trivial

theorem relabels_back (cs : List Char) (earlier : List Fault) :
    (back cs earlier).Relabels (.all (Token.behind cs)) (.all id) where
  literal h := ⟨h.2.2, by rw [h.1]; exact h.2.2⟩
  written h := h.1.symm
  placed h := by rcases h with h | h <;> exact h.1.symm
  missing h := by rcases h with h | h <;> rw [h.1] <;> rfl
  receiver h := by rw [h.1]; rfl

/-! ### Both texts -/

variable {p q file : String}

/-- The token with which a text begins. -/
def TokenStream.first (s : TokenStream) : Token := s.legal.headD s.last

/-- What follows the text begins on a line of its own. -/
theorem line_ne_endLine (hp : EndsLine file p) {t : Token}
    (ht : t ∈ (TokenStream.ofText file q).toList) :
    (t.behind p.toList).line ≠ (TokenStream.ofText file p).legal.getLast?.elim 1 Token.endLine := by
  have hline : p.toList.count '\n' + 1 ≤ (t.behind p.toList).line :=
    Nat.add_le_add_left (TokenStream.one_le_line file q t ht) _
  have hbreak := List.count_pos_iff.mpr (List.mem_of_getLast? hp.newline)
  cases hlast : (TokenStream.ofText file p).legal.getLast? with
  | none =>
      change _ ≠ 1
      omega
  | some l =>
      have := TokenStream.endLine_lt hp l
        (TokenStream.mem_body_of_legal (List.mem_of_getLast? hlast))
      change _ ≠ l.endLine
      omega

/-- Both texts are read alike up to the end of the first. -/
theorem readers_front (hp : EndsLine file p)
    (hstatic : (TokenStream.ofText file p).legal.getLast?.any (·.isKeyword .kwStatic) = false)
    {t : Token} {ts : List Token} (hq : (TokenStream.ofText file q).legal = t :: ts)
    (ht : (t.behind p.toList).isAny declaring = true) :
    (front (.ofText file p) (t.behind p.toList)
        ((ts ++ [(TokenStream.ofText file q).last]).map (Token.behind p.toList)) ht).Readers
      (.ofStream (.ofText file p)) (.ofStream (.ofText file (p ++ q))) := by
  have hs := TokenStream.closed_ofText file p
  have hs' := TokenStream.closed_ofText file (p ++ q)
  refine readers_ofStream (l := 1) hs hs' (TokenStream.ofText_ordered file p)
    (TokenStream.ofText_ordered file (p ++ q)) ⟨rfl, rfl⟩ ?_
  have hlast : (TokenStream.ofText file (p ++ q)).last =
      (TokenStream.ofText file q).last.behind p.toList := by rw [TokenStream.ofText_append hp]
  have hmem : t ∈ (TokenStream.ofText file q).toList :=
    List.mem_append_left _ (TokenStream.mem_body_of_legal (hq ▸ List.mem_cons_self))
  rw [TokenStream.legal_append hp, hlast, hq, List.append_assoc, List.map_cons, List.cons_append]
  refine spots_of_lines (List.forall₂_same.mpr fun t ht => ⟨rfl, ht, hs.body_open t
    (TokenStream.mem_body_of_legal ht)⟩) rfl ⟨rfl, rfl, hs.last_isEnd⟩
    (.inr (line_ne_endLine hp hmem)) (fun _ => hstatic) ?_
  rw [List.map_append]
  rfl

/-- From the end of the first text on, the second is read as if it stood alone. -/
theorem readers_back {t : Reader} (ht : t.Sound) (hunmuted : t.muted = false)
    (hordered : t.pending.Pairwise fun t u => t.span.start < u.span.start)
    (hrest : t.spot.rest = ((TokenStream.ofText file q).legal ++
      [(TokenStream.ofText file q).last]).map (Token.behind p.toList)) :
    ∃ l, (back p.toList t.found).Readers
      { Reader.ofStream (.ofText file q) with line := l } t := by
  have hs := TokenStream.closed_ofText file q
  obtain ⟨l, hlines⟩ : ∃ l, lines t.line ((TokenStream.ofText file q).legal.map
      (Token.behind p.toList)) = lines l (TokenStream.ofText file q).legal :=
    exists_lines_eq t.line (by simp) (Token.joints_behind _ _)
  refine ⟨l, ?_⟩
  have hspot : t.spot = ⟨t.line, (TokenStream.ofText file q).legal.map (Token.behind p.toList) ++
      [(TokenStream.ofText file q).last.behind p.toList]⟩ := by
    rw [List.map_append] at hrest
    exact congrArg (Spot.mk t.line) hrest
  have hend : ((TokenStream.ofText file q).last.behind p.toList).isEnd = true := hs.last_isEnd
  refine
    { sound := { Reader.sound_ofStream hs with }
      sound' := ht
      spots := ?_
      muted := hunmuted.symm
      found := ⟨[], [], Reader.faults_ofStream, (List.append_nil _).symm, .nil⟩
      ordered := ordered_ofStream hs (TokenStream.ofText_ordered file q) l
      ordered' := hordered }
  rw [spot_ofStream hs, hspot]
  refine spots_of_lines ?_ hlines.symm ⟨rfl, hs.last_isEnd⟩ (.inl hend) (fun hf => ?_) rfl
  · rw [List.forall₂_map_right_iff]
    refine List.forall₂_same.mpr fun t ht => ⟨rfl, ?_⟩
    have hmem := TokenStream.mem_body_of_legal ht
    exact ⟨hs.body_open t hmem, hs.body_written t hmem⟩
  · simp_all [Token.isEnd, Token.isKeyword]

/-- The statements of a text and of the declarations behind it. -/
theorem Parsed.statements_append (hp : EndsLine file p)
    (hstatic : (TokenStream.ofText file p).legal.getLast?.any (·.isKeyword .kwStatic) = false)
    (hshut : ¬LeavesOpen (.ofStream (.ofText file p)))
    (hq : (TokenStream.ofText file q).first.isAny declaring = true) :
    (Parsed.ofSource (p ++ q) file).program.statements =
      (Relabelling.moved (Place.byteSize p.toList)
          ((TokenStream.ofText file q).first.behind p.toList)).stmts
            (Parsed.ofSource p file).program.statements ++
        (Relabelling.all (Token.behind p.toList)).stmts
          (Parsed.ofSource q file).program.statements := by
  have hs := TokenStream.closed_ofText file p
  have hs' := TokenStream.closed_ofText file q
  obtain ⟨u, us, hus⟩ : ∃ u us, (TokenStream.ofText file q).legal = u :: us := by
    cases h : (TokenStream.ofText file q).legal with
    | cons u us => exact ⟨u, us, rfl⟩
    | nil =>
        rw [TokenStream.first, h] at hq
        obtain ⟨k, -, hk⟩ := isKeyword_of_isAny hq
        have := hs'.last_isEnd
        simp_all [Token.isEnd]
  have hfirst : (TokenStream.ofText file q).first = u := by rw [TokenStream.first, hus]; rfl
  rw [hfirst] at hq ⊢
  obtain ⟨r, hreads, -⟩ := exists_reads hs
  obtain ⟨r', hreads', -⟩ := exists_reads (TokenStream.closed_ofText file (p ++ q))
  obtain ⟨r'', hreads'', -⟩ := exists_reads hs'
  -- Up to the end of the first text.
  obtain ⟨ss, ss', t, hss, halike, ht, hrest⟩ :=
    hreads.statements.alike (readers_front hp hstatic hus hq) (.inr hshut) hreads'.statements
  have hends := ht.ends hreads.atEnd
  have hspot : t.spot.rest = _ := hends.behind
  rw [hends.ending.2.1] at hspot
  -- From there on.
  have hmuted : t.muted = false := ht.muted ▸ hreads.statements.unmuted rfl
  have hbehind : t.spot.rest = ((TokenStream.ofText file q).legal ++
      [(TokenStream.ofText file q).last]).map (Token.behind p.toList) := by
    rw [hspot, hus]
    rfl
  obtain ⟨l, hback⟩ := readers_back ht.sound' hmuted ht.ordered' hbehind
  obtain ⟨s', -, hbegun⟩ := hreads''.statements.line l
  obtain ⟨halike', -⟩ := hbegun.alike_end hback trivial (fun h => h.1 ▸ h.2) hrest
  obtain ⟨hstart, hbody⟩ := TokenStream.ofText_start file p
  have hfront := (relabels_front hs hstart hbody).statements_eq (statements_of_forall₂ halike)
  have hback := (relabels_back _ _).statements_eq (statements_of_forall₂ halike')
  exact hss.trans (by rw [← hfront, ← hback]; rfl)

/-- A conditional that is open inside a function ends with it. -/
theorem Parsed.statements_append_routine :
    ¬LeavesOpen (.ofStream (.ofText "t.prw" "Function F(\nIf x\n")) ∧
      (Parsed.ofSource ("Function F(\nIf x\n" ++ "Class C\nEndClass\n") "t.prw").program.statements =
        (Relabelling.moved 17 ⟨.keyword .kwClass, "Class", ⟨17, 22⟩, 3, 1, "t.prw"⟩).stmts
            (Parsed.ofSource "Function F(\nIf x\n" "t.prw").program.statements ++
          (Relabelling.all (Token.behind "Function F(\nIf x\n".toList)).stmts
            (Parsed.ofSource "Class C\nEndClass\n" "t.prw").program.statements := by
  have hp : EndsLine "t.prw" "Function F(\nIf x\n" :=
    ⟨by decide +kernel, by decide +kernel, by decide +kernel⟩
  have hshut : ¬LeavesOpen (.ofStream (.ofText "t.prw" "Function F(\nIf x\n")) := by
    rintro ⟨t, ha, hopen, hleft⟩
    have hend : ((statement (expression maxDepth) .file).run
        (.ofStream (.ofText "t.prw" "Function F(\nIf x\n"))).2.atEnd = true := by decide +kernel
    cases ha with
    | here =>
        have hfunction := hleft.not_declares.1
        revert hfunction
        decide +kernel
    | there _ hx hs =>
        obtain ⟨-, rfl⟩ := Run.unique (run_self _ _) hx
        cases hs with
        | here => exact absurd hopen (by simp [hend])
        | there h => exact absurd h (by simp [hend])
  refine ⟨hshut, ?_⟩
  exact Parsed.statements_append hp (by decide +kernel) hshut (by decide +kernel)

/-- Where the text ends in the head of a conditional no block is open, and yet what follows
becomes its block. -/
theorem Parsed.statements_append_head :
    EndsLine "t.prw" "If\n" ∧
      (TokenStream.ofText "t.prw" "If\n").legal.getLast?.any (·.isKeyword .kwStatic) = false ∧
      (TokenStream.ofText "t.prw" "Function F()\nEndFunction\n").first.isAny declaring = true ∧
      (Reader.ofStream (.ofText "t.prw" "If\n")).advanced.atEnd = true ∧
      (Parsed.ofSource "If\n" "t.prw").program.statements.length +
          (Parsed.ofSource "Function F()\nEndFunction\n" "t.prw").program.statements.length ≠
        (Parsed.ofSource ("If\n" ++ "Function F()\nEndFunction\n")
          "t.prw").program.statements.length := by
  refine ⟨⟨by decide +kernel, by decide +kernel, by decide +kernel⟩, ?_⟩
  decide +kernel

end Clipper
