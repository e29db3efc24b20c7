import Clipper.Proofs.Likeness.Joined
import Clipper.Proofs.Setting.Inline
import Clipper.Proofs.Setting.Subscripts

/-!
Texts of one expression, put together. Behind an operand one list of subscripts and lists of one
subscript each make the same tree, and they are both too deep or neither is.
-/

namespace Clipper

open Correspondence Grammar Layout

/-- The words of a text. -/
def words (file source : String) : List Word :=
  (TokenStream.ofText file source).body.map Token.word

/-- The expression that a program consists of, if it does. -/
def Program.expression? : Program → Option Expr
  | ⟨[.expression _ x]⟩ => some x
  | _ => none

theorem Program.expression?_eq_some {p : Program} {x : Expr} :
    p.expression? = some x ↔ ∃ t, p.statements = [.expression t x] := by
  obtain ⟨ss⟩ := p
  constructor
  · intro h
    unfold expression? at h
    split at h
    · obtain rfl := Option.some.inj h
      rename_i t _ heq
      exact ⟨t, congrArg Program.statements heq⟩
    · cases h
  · rintro ⟨t, rfl⟩
    rfl

/-- The text stands on one line and is read without a fault as one expression. -/
structure StandsAlone (file source : String) (x : Expr) : Prop extends Inline file source where
  clean : (Parsed.ofSource source file).diagnostics = []
  expression : (Parsed.ofSource source file).program.expression? = some x

instance decidableStandsAlone {file source : String} :
    Decidable (∃ x, StandsAlone file source x) :=
  decidable_of_iff (Inline file source ∧ (Parsed.ofSource source file).diagnostics = [] ∧
      (Parsed.ofSource source file).program.expression?.isSome = true)
    ⟨fun ⟨h, h', h''⟩ => (Option.isSome_iff_exists.mp h'').imp fun _ hx => ⟨h, h', hx⟩,
      fun ⟨_, h, h', hx⟩ => ⟨h, h', hx ▸ rfl⟩⟩

/-- A name, something that is called, subscripted or sent to, or an expression in parentheses. -/
inductive Operand (file source : String) : Prop
  | chain {x : Expr} : StandsAlone file source x → x.isPostfix = true → Operand file source
  | group {inner : String} {x : Expr} : Inline file source → StandsAlone file inner x →
      words file source = marked .openParen :: (words file inner ++ [marked .closeParen]) →
      Operand file source

/-! ### Tokens -/

section Tokens

variable {file source : String} {x y : Expr} {d : Nat} {t : TokenStream}

/-- No word is an illegal character. -/
def Legal (ws : List Word) : Prop := ∀ w ∈ ws, w.1 ≠ .illegal

theorem Token.isIllegal_of_legal {t : Token} {ws : List Word} (h : Legal ws) (ht : t.word ∈ ws) :
    t.isIllegal = false := by
  simpa [Token.isIllegal, Token.word] using h _ ht

theorem Token.on_of_line {t : Token} {l : Nat} (ht : t ∈ (TokenStream.ofText file source).body)
    (hline : t.line = l ∧ t.endLine = l) (hlegal : t.isIllegal = false) : t.On file l :=
  have hs := TokenStream.closed_ofText file source
  ⟨TokenStream.ofText_file file source t ht, hline.1, hline.2, hlegal, hs.body_open t ht,
    hs.body_written t ht⟩

theorem StandsAlone.on (h : StandsAlone file source x) :
    ∀ t ∈ (TokenStream.ofText file source).body, t.On file 1 := fun t ht =>
  t.on_of_line ht (TokenStream.line_of_inline h.line t ht)
    (Parsed.legal_of_clean (Parsed.faults_of_diagnostics h.clean) t ht)

/-- What stands alone is read up to its end. -/
theorem StandsAlone.derives (h : StandsAlone file source x) :
    Derives false maxDepth (.expression .file loosest x)
      ⟨1, (TokenStream.ofText file source).body ++ [(TokenStream.ofText file source).last]⟩
      ⟨1, [(TokenStream.ofText file source).last]⟩ := by
  obtain ⟨t, ht⟩ := Program.expression?_eq_some.mp h.expression
  obtain ⟨l, hall⟩ := Parsed.derives_of_clean (Parsed.faults_of_diagnostics h.clean)
  rw [ht] at hall
  -- On its way it stays on the line.
  have hlast := (TokenStream.closed_ofText file source).last_isEnd
  let S : Setting := .ofLast 1 1 hlast (Token.shuts_last hlast)
  have hspots : S.Spots _ _ := Setting.spots_of_on h.on h.on rfl
  obtain ⟨_, _, -, hw, -⟩ := hall.alone.carried S hspots (Nat.le_refl 1)
  obtain rfl : l = 1 := congrArg Spot.line (hw.arrived rfl).1
  exact hall.alone

theorem StandsAlone.words_ne_nil (h : StandsAlone file source x) : words file source ≠ [] := by
  intro hnil
  have hderives := h.derives
  rw [List.map_eq_nil_iff.mp hnil] at hderives
  obtain ⟨st, hst⟩ := hderives.begins
  have hend := (TokenStream.closed_ofText file source).last_isEnd
  rw [hst.isEnd] at hend
  cases hend

/-- How deep an expression is decides whether its text is too deep. -/
theorem parsed_of_exactly {t : Token} {ts : List Token}
    (hbody : (TokenStream.ofText file source).body = t :: ts)
    (hlegal : ∀ t ∈ (TokenStream.ofText file source).body, t.isIllegal = false)
    (hd : Exactly d (.expression .file loosest) x ⟨1, (TokenStream.ofText file source).toList⟩
      ⟨1, [(TokenStream.ofText file source).last]⟩) :
    ((Parsed.ofSource source file).TooDeep ↔ maxDepth < d) ∧
      (¬(Parsed.ofSource source file).TooDeep → (Parsed.ofSource source file).faults = [] ∧
        (Parsed.ofSource source file).program.statements = [.expression t x]) := by
  have hs := TokenStream.closed_ofText file source
  have heither := parsed_of_expression hs hlegal hbody (hd.derives (Nat.le_refl d))
  refine ⟨⟨fun hdeep => ?_, fun hlt => ?_⟩, heither.resolve_left⟩
  · rw [← Nat.not_le]
    intro hle
    obtain ⟨hnone, -⟩ := parsed_of_strict hs hlegal ((hd.derives hle).statement hs hbody)
    obtain ⟨u, hu⟩ := hdeep
    rw [Parsed.ofSource, hnone] at hu
    cases hu
  · refine heither.resolve_right fun hclean => ?_
    obtain ⟨l, hall⟩ := Parsed.derives_of_clean hclean.1
    rw [Parsed.ofSource, hclean.2] at hall
    have hle := ((hd _ _ _).mp hall.alone).1
    omega

end Tokens

/-! ### Words -/

section Words

variable {file source e a : String} {x y : Expr} {qs : List (Subscript file)} {es : List String}
  {cs : List Char} {ws : List Word} {isOpen : Bool}

theorem StandsAlone.legal (h : StandsAlone file source x) : Legal (words file source) := by
  intro w hw
  obtain ⟨t, ht, rfl⟩ := List.mem_map.mp hw
  exact bne_iff_ne.mp (by simpa [Token.isIllegal, Token.word] using (h.on t ht).legal)

/-- The text has these words, and they stand in it wherever it is put. -/
structure Writes (file source : String) (ws : List Word) : Prop extends Inline file source where
  words_eq : words file source = ws
  ne_nil : ws ≠ []
  legal : Legal ws

theorem StandsAlone.writes (h : StandsAlone file source x) :
    Writes file source (words file source) := ⟨h.toInline, rfl, h.words_ne_nil, h.legal⟩

theorem Operand.writes (h : Operand file a) : Writes file a (words file a) := by
  cases h with
  | chain h _ => exact h.writes
  | group h hinner hwords =>
      refine ⟨h, rfl, by simp [hwords], ?_⟩
      rw [hwords]
      intro w hw
      simp only [List.mem_cons, List.mem_append, List.not_mem_nil, or_false] at hw
      rcases hw with rfl | hw | rfl
      · simp [marked]
      · exact hinner.legal w hw
      · simp [marked]

theorem Writes.lexed {fresh : Bool} {vs : List Word} {wss : List (List Word)}
    (h : Writes file source ws) (hcs : Lexeme.Ends cs) (hrest : Lexed file false cs (vs :: wss)) :
    Lexed file fresh (source.toList ++ cs) ((ws ++ vs) :: wss) := by
  obtain ⟨hinline, rfl, hnil, -⟩ := h
  exact hrest.append hinline (fun hbody => hnil (by rw [words, hbody]; rfl)) hcs

/-- Texts that are each written for something are written for a list of these. -/
theorem exists_written {α : Type} {f : α → List Word}
    (h : ∀ e ∈ es, ∃ q, Writes file e (f q)) :
    ∃ qs, List.Forall₂ (fun e q => Writes file e (f q)) es qs ∧ ∀ q ∈ qs, Legal (f q) := by
  induction es with
  | nil => exact ⟨[], .nil, nofun⟩
  | cons e es ih =>
      rw [List.forall_mem_cons] at h
      obtain ⟨q, hq⟩ := h.1
      obtain ⟨qs, hqs, hlegal⟩ := ih h.2
      exact ⟨q :: qs, .cons hq hqs, List.forall_mem_cons.mpr ⟨hq.legal, hlegal⟩⟩

/-- What stands alone can be put into brackets. -/
theorem StandsAlone.exists_subscript (h : StandsAlone file e x) :
    ∃ q : Subscript file, Writes file e q.words := by
  obtain ⟨q, hwords, -⟩ :=
    Grammar.exists_subscript h.derives h.on (TokenStream.closed_ofText file e).last_isEnd
  exact ⟨q, hwords ▸ h.writes⟩

/-- Every operand can be subscripted. -/
theorem Operand.exists_heads (h : Operand file a) : ∃ x, Heads file (words file a) x := by
  cases h with
  | chain h hx =>
      exact ⟨_, heads_of_derives h.derives h.on (TokenStream.closed_ofText file a).last_isEnd hx⟩
  | group _ hinner hwords =>
      obtain ⟨q, hq⟩ := hinner.exists_subscript
      rw [hwords, hq.words_eq]
      exact ⟨q.tree, q.heads⟩

theorem legal_cons {p : Punctuation} (h : Legal ws) : Legal (marked p :: ws) :=
  List.forall_mem_cons.mpr ⟨by simp [marked], h⟩

theorem Grammar.Brackets.legal (h : Brackets file isOpen qs ws) (hqs : ∀ q ∈ qs, Legal q.words) :
    Legal ws := by
  induction h with
  | ended => exact fun w hw => nomatch hw
  | closed _ ih => exact legal_cons (ih hqs)
  | opened q _ ih | next q _ ih =>
      rw [List.forall_mem_cons] at hqs
      exact legal_cons (List.forall_mem_append.mpr ⟨hqs.1, ih hqs.2⟩)

theorem ends_cons {c : Char} (hc : c ∈ [' ', '\n', ',', '[', ']']) : Lexeme.Ends (c :: cs) := by
  intro d hd
  obtain rfl := Option.some.inj hd
  simp only [List.mem_cons, List.not_mem_nil, or_false] at hc
  rcases hc with rfl | rfl | rfl | rfl | rfl <;> simp [Lexeme.shutters]

/-- What stands behind the first subscript of a list. -/
def others (es : List String) : List Char :=
  es.flatMap (fun e => ',' :: ' ' :: e.toList) ++ [']']

theorem ends_others (es : List String) : Lexeme.Ends (others es) := by
  cases es with
  | nil => exact ends_cons (by simp)
  | cons e es => exact (ends_cons (by simp) : Lexeme.Ends (',' :: _))

theorem lexed_others (h : List.Forall₂ (fun e q => Writes file e q.words) es qs) :
    ∃ ws, Brackets file true qs ws ∧ Lexed file false (others es) [ws] := by
  induction h with
  | nil => exact ⟨_, .closed .ended, Lexed.nil.closeBracket⟩
  | @cons e q es qs hq _ ih =>
      obtain ⟨ws, hws, hlexed⟩ := ih
      refine ⟨_, .next q hws, ?_⟩
      rw [others, List.flatMap_cons, List.append_assoc]
      exact (hq.lexed (ends_others es) hlexed).blank.comma

/-- One list. -/
theorem lexed_list (h : List.Forall₂ (fun e q => Writes file e q.words) (e :: es) qs) :
    ∃ ws, Brackets file false qs ws ∧
      Lexed file false ('[' :: (e.toList ++ others es)) [ws] := by
  cases h with
  | cons hq h =>
      obtain ⟨ws, hws, hlexed⟩ := lexed_others h
      exact ⟨_, .opened _ hws, (hq.lexed (ends_others es) hlexed).openBracket⟩

/-- Lists of one subscript each. -/
def singles (es : List String) : List Char := es.flatMap fun e => '[' :: (e.toList ++ [']'])

theorem lexed_singles (h : List.Forall₂ (fun e q => Writes file e q.words) es qs) :
    ∃ ws, Brackets file false qs ws ∧ Lexed file false (singles es) [ws] := by
  induction h with
  | nil => exact ⟨_, .ended, .nil⟩
  | @cons e q es qs hq _ ih =>
      obtain ⟨ws, hws, hlexed⟩ := ih
      refine ⟨_, .opened q (.closed hws), ?_⟩
      rw [singles, List.flatMap_cons, List.cons_append, List.append_assoc]
      exact (hq.lexed (ends_cons (by simp)) hlexed.closeBracket).openBracket

end Words

/-! ### Texts -/

namespace Parsed

variable {file source a e : String} {cs : List Char} {ws : List Word} {es : List String}
  {qs : List (Subscript file)} {s : List Stmt} {d : Nat}

/-- The text needs a depth, and where there is as much it is read without a fault to statements. -/
structure Needs (file source : String) (d : Nat) (s : Program) : Prop where
  tooDeep_iff : (ofSource source file).TooDeep ↔ maxDepth < d
  clean : ¬(ofSource source file).TooDeep →
    (ofSource source file).diagnostics = [] ∧ (ofSource source file).program.unplaced = s

/-- Of an operand that is subscripted, its words and those of the subscripts decide what is read
and how deep it is. -/
theorem exists_needs (ha : Operand file a) (hqs : ∀ q ∈ qs, Legal q.words) :
    ∃ d s, ∀ ⦃source cs ws⦄, source.toList = a.toList ++ cs → Lexeme.Ends cs →
      Brackets file false qs ws → Lexed file false cs [ws] → Needs file source d s := by
  obtain ⟨x, hx⟩ := ha.exists_heads
  obtain ⟨d, hd⟩ := hx.exactly qs
  obtain ⟨v, vs, hv⟩ := List.exists_cons_of_ne_nil ha.writes.ne_nil
  refine ⟨d, ⟨[.expression (.ofWord file v) (Subscript.tower x qs).unplaced]⟩,
    fun source cs ws hsource hends hws hcs => ?_⟩
  have hall : Lexed file true _ _ := ha.writes.lexed hends hcs
  rw [← hsource] at hall
  obtain ⟨hwords, hline⟩ := (hall .start).single
  have hlegal : ∀ t ∈ (TokenStream.ofText file source).body, t.isIllegal = false := fun t ht =>
    t.isIllegal_of_legal (List.forall_mem_append.mpr ⟨ha.writes.legal, hws.legal hqs⟩)
      (hwords ▸ List.mem_map_of_mem ht)
  have hon : ∀ t ∈ (TokenStream.ofText file source).body, t.On file 1 := fun t ht =>
    t.on_of_line ht (hline t ht) (hlegal t ht)
  obtain ⟨y, hy, hread⟩ := hd hws hwords hon (TokenStream.closed_ofText file source).last_isEnd
  have hfirst : (TokenStream.ofText file source).body.map Token.word = v :: (vs ++ ws) := by
    rw [← List.cons_append, ← hv]
    exact hwords
  obtain ⟨t, ts, hts, ht, -⟩ := List.map_eq_cons_iff.mp hfirst
  obtain ⟨hdeep, hclean⟩ := parsed_of_exactly hts hlegal hread
  refine ⟨hdeep, fun hshallow => ?_⟩
  obtain ⟨hnone, hstatements⟩ := hclean hshallow
  refine ⟨by rw [diagnostics, hnone, List.map_nil], ?_⟩
  have hunplaced : t.unplaced = .ofWord file v := by
    rw [(hon t (hts ▸ List.mem_cons_self)).unplaced, ht]
  rw [Program.unplaced, Relabelling.program, hstatements, ← hy, ← hunplaced]
  rfl

/-- Both are too deep, or both are read without a fault to the same tree, but for places. -/
structure Agree (p q : Parsed) : Prop where
  tooDeep_iff : p.TooDeep ↔ q.TooDeep
  clean : ¬p.TooDeep →
    p.diagnostics = [] ∧ q.diagnostics = [] ∧ p.program.unplaced = q.program.unplaced

theorem Needs.agree {source' : String} {s : Program} (h : Needs file source d s)
    (h' : Needs file source' d s) : Agree (ofSource source file) (ofSource source' file) := by
  have hiff : (ofSource source file).TooDeep ↔ (ofSource source' file).TooDeep :=
    h.tooDeep_iff.trans h'.tooDeep_iff.symm
  refine ⟨hiff, fun hshallow => ?_⟩
  obtain ⟨hclean, hs⟩ := h.clean hshallow
  obtain ⟨hclean', hs'⟩ := h'.clean fun hdeep => hshallow (hiff.mpr hdeep)
  exact ⟨hclean, hclean', hs.trans hs'.symm⟩

theorem toList_list (e : String) (es : List String) :
    (", ".intercalate (e :: es) ++ "]").toList = e.toList ++ others es := by
  induction es generalizing e with
  | nil => simp [others]
  | cons e' es ih =>
      have hrest := ih e'
      rw [String.toList_append] at hrest
      rw [String.intercalate_cons_cons, String.toList_append, String.toList_append,
        String.toList_append, List.append_assoc, List.append_assoc, hrest]
      simp [others]

theorem toList_singles (es : List String) :
    (String.join (es.map fun e => "[" ++ e ++ "]")).toList = singles es := by
  rw [String.toList_join, List.flatMap_map, singles]
  simp

/-- A list of subscripts is read as lists of one subscript each. -/
theorem agree_subscripts (ha : Operand file a) (hnil : es ≠ [])
    (hes : ∀ e ∈ es, ∃ x, StandsAlone file e x) :
    Agree (ofSource (a ++ "[" ++ ", ".intercalate es ++ "]") file)
      (ofSource (a ++ String.join (es.map fun e => "[" ++ e ++ "]")) file) := by
  have hsubscripts : ∀ e ∈ es, ∃ q : Subscript file, Writes file e q.words := by
    intro e he
    obtain ⟨x, hx⟩ := hes e he
    exact hx.exists_subscript
  obtain ⟨qs, hqs, hlegal⟩ := exists_written hsubscripts
  obtain ⟨d, s, hneeds⟩ := exists_needs ha hlegal
  obtain ⟨ws', hws', hsingles⟩ := lexed_singles hqs
  obtain ⟨e, es, rfl⟩ := List.exists_cons_of_ne_nil hnil
  obtain ⟨ws, hws, hlist⟩ := lexed_list hqs
  have htext : (a ++ "[" ++ ", ".intercalate (e :: es) ++ "]").toList =
      a.toList ++ '[' :: (e.toList ++ others es) := by
    rw [String.append_assoc, String.toList_append, toList_list]
    simp
  have htext' : (a ++ String.join ((e :: es).map fun e => "[" ++ e ++ "]")).toList =
      a.toList ++ singles (e :: es) := by
    rw [String.toList_append, toList_singles]
  have hfirst := hneeds htext (ends_cons (by simp)) hws hlist
  exact hfirst.agree (hneeds htext' (ends_cons (by simp)) hws' hsingles)

end Parsed

end Clipper
