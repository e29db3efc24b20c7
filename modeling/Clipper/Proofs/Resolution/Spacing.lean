import Clipper.Check
import Clipper.Proofs.Likeness.Spacing
import Clipper.Proofs.Resolution.Keys
import Clipper.Proofs.Resolution.Table

/-!
Texts that differ in their spacing have the same said of them: the tree, what is wrong with
the text and what is wrong with its names.
-/

namespace Clipper

namespace Correspondence

variable {d d' : Declaration} {r r' : Reference} {n n' : Name}

/-! ### Declarations -/

/-- Tables with the same keys, for symbols at corresponding tokens. -/
def Tables (a a' : SymbolTable) : Prop :=
  List.Forall₂ (fun e e' => e.1 = e'.1 ∧ e.2.token.shape = e'.2.token.shape) a.entries a'.entries

theorem Tables.lookup {a a' : SymbolTable} (h : Tables a a') (k : String) :
    (a.lookup k).map (·.token.shape) = (a'.lookup k).map (·.token.shape) := by
  have hentries : ∀ {es es' : List (String × Symbol)}, List.Forall₂ (fun e e' => e.1 = e'.1 ∧
      e.2.token.shape = e'.2.token.shape) es es' →
        (es.lookup k).map (·.token.shape) = (es'.lookup k).map (·.token.shape) := by
    intro es es' h
    induction h with
    | nil => rfl
    | @cons e e' _ _ he _ ih =>
        obtain ⟨k', s⟩ := e
        obtain ⟨k'', s'⟩ := e'
        obtain ⟨rfl, hs⟩ := he
        rw [List.lookup_cons, List.lookup_cons]
        cases k == k' with
        | true => exact congrArg some hs
        | false => exact ih
  exact hentries h

theorem Tables.contains {a a' : SymbolTable} (h : Tables a a') (k : String) :
    a.contains k = a'.contains k := by
  have := congrArg Option.isSome (h.lookup k)
  simpa [SymbolTable.contains] using this

theorem shape_of_names (h : spacing.Names n n') (hn : n.isMissing = false) :
    n.token.shape = n'.token.shape := by
  cases h with
  | written ht _ => exact (shape_of_spacing (.inl ht)).1
  | missing _ => cases hn

theorem isMissing_eq (h : spacing.Names n n') : n.isMissing = n'.isMissing := by
  rw [Name.isMissing, Name.isMissing, h.text_eq]

/-- Analyses that have found the same so far. -/
structure Analyses (a a' : Analysis) : Prop where
  symbols : Tables a.symbols a'.symbols
  faults : a.faults.map Fault.shape = a'.faults.map Fault.shape

theorem Analyses.declare {a a' : Analysis} (h : Analyses a a')
    (hd : spacing.Declarations d d') : Analyses (a.declare d) (a'.declare d') := by
  have hmissing := isMissing_eq hd.name
  have hkey : d.key = d'.key := by
    rw [Declaration.key, Declaration.key, hd.scope, hd.name.text_eq]
  unfold Analysis.declare SymbolTable.define
  rw [← hmissing, ← hkey]
  split
  · exact h
  rename_i hn
  have hn : d.name.isMissing = false := by simpa using hn
  have htoken := shape_of_names hd.name hn
  have hlookup := h.symbols.lookup d.key
  cases hfirst : a.symbols.lookup d.key with
  | none =>
      rw [hfirst] at hlookup
      have hfirst' : a'.symbols.lookup d.key = none := by simpa using hlookup.symm
      rw [hfirst']
      exact ⟨List.rel_append h.symbols (.cons ⟨rfl, htoken⟩ .nil), h.faults⟩
  | some first =>
      rw [hfirst] at hlookup
      obtain ⟨first', hfirst', hsame⟩ := Option.map_eq_some_iff.mp hlookup.symm
      rw [hfirst']
      refine ⟨h.symbols, ?_⟩
      simp [h.faults, Fault.shape, hd.name.text_eq, htoken, hsame]

theorem analyses_collect {ds ds' : List Declaration}
    (h : List.Forall₂ spacing.Declarations ds ds') :
    Analyses (Analysis.collect ds) (Analysis.collect ds') := by
  have hfold : ∀ a a', Analyses a a' →
      Analyses (ds.foldl Analysis.declare a) (ds'.foldl Analysis.declare a') := by
    induction h with
    | nil => exact fun _ _ h => h
    | cons hd _ ih => exact fun a a' h => ih _ _ (h.declare hd)
  exact hfold _ _ ⟨.nil, rfl⟩

/-! ### Uses -/

theorem sameWord_of_receiver {w : String} (h : Keyword.ofWord? w = some .kwSelf) :
    Text.sameWord "Self" w = true := by
  have hspelled := List.find?_some h
  simpa [Keyword.spellings, Keyword.canonical, Keyword.aliases] using hspelled

theorem any_sameWord {v w : String} (h : Text.sameWord v w = true) (ns : List String) :
    ns.any (Text.sameWord · v) = ns.any (Text.sameWord · w) := by
  have hfolded := Text.sameWord_iff.mp h
  refine congrArg _ (funext fun n => ?_)
  rw [Text.sameWord, Text.sameWord, hfolded]

/-- No point and no reserved word. -/
def Unreserved (n : String) : Prop := Pointless n ∧ Keyword.ofWord? n = none

theorem unreserved_of_names (h : spacing.Names n n') (hn : n.isMissing = false) :
    Unreserved n.text ∧ Unreserved n'.text := by
  cases h with
  | missing _ => cases hn
  | @written t u ht hk =>
      have hk' : u.kind = .identifier := ht.1.1 ▸ hk
      obtain ⟨-, -, -, -, ht, hu⟩ := ht
      exact ⟨⟨ht.not_mem_of_word (.inl hk) Lexeme.isWordPart_point, ht.name hk⟩,
        ⟨hu.not_mem_of_word (.inl hk') Lexeme.isWordPart_point, hu.name hk'⟩⟩

theorem unreserved_of_declarations {ds ds' : List Declaration}
    (h : List.Forall₂ spacing.Declarations ds ds') :
    (∀ d ∈ ds, d.name.isMissing = false → Unreserved d.name.text) ∧
      ∀ d ∈ ds', d.name.isMissing = false → Unreserved d.name.text := by
  induction h with
  | nil => simp
  | cons hd _ ih =>
      rw [List.forall_mem_cons, List.forall_mem_cons]
      refine ⟨⟨fun hn => (unreserved_of_names hd.name hn).1, ih.1⟩, fun hn => ?_, ih.2⟩
      exact (unreserved_of_names hd.name ((isMissing_eq hd.name).trans hn)).2

/-- A reserved word is declared nowhere. -/
theorem contains_receiver {ds : List Declaration}
    (hds : ∀ d ∈ ds, d.name.isMissing = false → Unreserved d.name.text) {w : String}
    (hw : Keyword.ofWord? w = some .kwSelf) (hpoint : Pointless w) (s : Scope) :
    (s.candidates w).any (Analysis.collect ds).symbols.contains = false := by
  have hkey : ∀ s : Scope, (Analysis.collect ds).symbols.contains (s.key w) = false := by
    intro s
    rw [← Bool.not_eq_true, Analysis.contains_collect]
    rintro ⟨d, hd, hmissing, hkey⟩
    obtain ⟨hname, hreserved⟩ := hds d hd hmissing
    have htext := (Scope.key_inj hname hpoint hkey).2.2
    rw [htext, hw] at hreserved
    cases hreserved
  have hfile : (Analysis.collect ds).symbols.contains w = false := hkey .file
  cases s <;> simp [Scope.candidates, hfile, hkey]

theorem isKnown_eq {ds ds' : List Declaration} (h : List.Forall₂ spacing.Declarations ds ds')
    (hr : spacing.References r r') (x : Externals) :
    Analysis.isKnown (Analysis.collect ds).symbols x r =
      Analysis.isKnown (Analysis.collect ds').symbols x r' := by
  have hcontains : (Analysis.collect ds).symbols.contains =
      (Analysis.collect ds').symbols.contains := funext (analyses_collect h).symbols.contains
  obtain ⟨s, n⟩ := r
  obtain ⟨s', n'⟩ := r'
  obtain ⟨rfl, hn⟩ := hr
  have hn : spacing.Mentions n n' := hn
  unfold Analysis.isKnown
  cases hn with
  | name hn => simp only [hn.text_eq, hcontains]
  | implied ht => simp only [hcontains, Name.text, Token.implied]
  | @receiver t u ht hk =>
      have hk' : u.kind = .keyword .kwSelf := ht.1.1 ▸ hk
      obtain ⟨-, -, -, -, ht, hu⟩ := ht
      obtain ⟨hds, hds'⟩ := unreserved_of_declarations h
      have hsame : Text.sameWord t.literal u.literal = true := by
        have hself := Text.sameWord_iff.mp (sameWord_of_receiver (ht.receiver hk))
        exact Text.sameWord_iff.mpr
          (hself.symm.trans (Text.sameWord_iff.mp (sameWord_of_receiver (hu.receiver hk'))))
      have hbuiltin : Builtin.ofWord? t.literal = Builtin.ofWord? u.literal :=
        congrArg (Builtin.all.find? ·) (funext fun b => any_sameWord hsame b.spellings)
      have hexternal : x.contains t.literal = x.contains u.literal := any_sameWord hsame x.names
      simp only [Name.text, hbuiltin, hexternal]
      rw [contains_receiver hds (ht.receiver hk)
          (ht.not_mem_of_word (.inr hk) Lexeme.isWordPart_point),
        contains_receiver hds' (hu.receiver hk')
          (hu.not_mem_of_word (.inr hk') Lexeme.isWordPart_point)]

theorem isExempt_eq (hr : spacing.References r r') :
    Analysis.isExempt r = Analysis.isExempt r' := by
  obtain ⟨s, n⟩ := r
  obtain ⟨s', n'⟩ := r'
  obtain ⟨rfl, hn⟩ := hr
  have hn : spacing.Mentions n n' := hn
  unfold Analysis.isExempt Name.isSelf Name.isMissing
  cases hn with
  | name hn => simp only [hn.text_eq]
  | implied ht => simp only [Name.text, Token.implied]
  | @receiver t u ht hk =>
      have hk' : u.kind = .keyword .kwSelf := ht.1.1 ▸ hk
      obtain ⟨-, -, -, ⟨hwritten, hwritten'⟩, ht, hu⟩ := ht
      simp only [Name.text, ht.receiver hk, hu.receiver hk', hwritten, hwritten']

theorem undeclared_eq {ds ds' : List Declaration} (h : List.Forall₂ spacing.Declarations ds ds')
    (hr : spacing.References r r') (x : Externals) :
    (Analysis.undeclared? (Analysis.collect ds).symbols x r).map Fault.shape =
      (Analysis.undeclared? (Analysis.collect ds').symbols x r').map Fault.shape := by
  have hexempt := isExempt_eq hr
  have hknown := isKnown_eq h hr x
  obtain ⟨s, n⟩ := r
  obtain ⟨s', n'⟩ := r'
  obtain ⟨rfl, hn⟩ := hr
  have hn : spacing.Mentions n n' := hn
  unfold Analysis.undeclared?
  rw [← hexempt, ← hknown]
  split
  · rfl
  rename_i hreported
  have hwritten : n.isMissing = false := by
    simp only [Analysis.isExempt, Bool.or_eq_true, not_or, Bool.not_eq_true] at hreported
    exact hreported.1.1
  refine congrArg some ?_
  cases hn with
  | name hn =>
      have htoken := shape_of_names hn hwritten
      have hkind : n.token.shape.kind = n'.token.shape.kind := congrArg Token.kind htoken
      have hkind : n.token.kind = n'.token.kind := hkind
      simp only [Fault.shape, hn.text_eq, htoken, hkind]
  | implied ht =>
      have hfile := (shape_of_spacing (.inl ht)).2
      simp [Fault.shape, Token.shape, Token.implied, hfile, TokenKind.hasContent]
  | receiver ht hk =>
      have htoken := (shape_of_spacing (.inl ht)).1
      have hk' : _ = TokenKind.keyword Keyword.kwSelf := ht.1.1 ▸ hk
      simp [Fault.shape, htoken, hk, hk', TokenKind.hasContent]

theorem filterMap_undeclared {ds ds' : List Declaration} {rs rs' : List Reference}
    (h : List.Forall₂ spacing.Declarations ds ds')
    (hrs : List.Forall₂ spacing.References rs rs') (x : Externals) :
    (rs.filterMap (Analysis.undeclared? (Analysis.collect ds).symbols x)).map Fault.shape =
      (rs'.filterMap (Analysis.undeclared? (Analysis.collect ds').symbols x)).map Fault.shape := by
  induction hrs with
  | nil => rfl
  | @cons r r' rs rs' hr _ ih =>
      have hfault := undeclared_eq h hr x
      rw [List.filterMap_cons, List.filterMap_cons]
      cases hu : Analysis.undeclared? (Analysis.collect ds).symbols x r with
      | none =>
          rw [hu] at hfault
          rw [Option.map_eq_none_iff.mp hfault.symm]
          exact ih
      | some f =>
          rw [hu] at hfault
          obtain ⟨f', hf', hsame⟩ := Option.map_eq_some_iff.mp hfault.symm
          rw [hf', List.map_cons, List.map_cons, hsame, ih]

/-- Programs that are alike have the same wrong with their names. -/
theorem shape_analysis {p p' : Program}
    (h : Part.Alike spacing false (.statements p.statements) (.statements p'.statements))
    (x : Externals) :
    (Analysis.ofProgram x p).faults.map Fault.shape =
      (Analysis.ofProgram x p').faults.map Fault.shape := by
  have hds := declarations_of_alike h
  rw [Analysis.ofProgram, Analysis.ofProgram, List.map_append, List.map_append,
    (analyses_collect hds).faults, filterMap_undeclared hds (references_of_alike h) x]

end Correspondence

/-- The layout of a text and the spelling of its reserved words do not matter: texts of the
same words, with line breaks at the same places, have the same tree and the same faults but
for illegal characters, and the same is wrong with their names. -/
theorem check_spacing {source source' file : String} (x : Externals)
    (h : (TokenStream.ofText file source).SameWords (.ofText file source')) :
    (Check.ofSource x source file).parsed.program.shape =
        (Check.ofSource x source' file).parsed.program.shape ∧
      ((Check.ofSource x source file).parsed.faults.filter (·.illegal?.isNone)).map Fault.shape =
        ((Check.ofSource x source' file).parsed.faults.filter (·.illegal?.isNone)).map
          Fault.shape ∧
      (Check.ofSource x source file).analysis.faults.map Fault.shape =
        (Check.ofSource x source' file).analysis.faults.map Fault.shape := by
  obtain ⟨halike, hfaults⟩ := Parsed.alike_spacing h
  refine ⟨congrArg Program.mk (Correspondence.relabels_spacing.statements halike),
    Correspondence.Relabels.forall₂_map hfaults fun _ _ => Correspondence.fault_shape_of_spacing,
    Correspondence.shape_analysis halike x⟩

/-- Comments, blank lines, an illegal character and another word for the end of a loop. -/
theorem check_spacing_comments :
    (TokenStream.ofText "t.prw" "While x\ny()\nEndDo").SameWords
        (.ofText "t.prw" "// c\n WHILE @ x /* d */\n\n  y( )\nendwhile") ∧
      (Parsed.ofSource "While x\ny()\nEndDo" "t.prw").program.shape =
        (Parsed.ofSource "// c\n WHILE @ x /* d */\n\n  y( )\nendwhile" "t.prw").program.shape := by
  have h : (TokenStream.ofText "t.prw" "While x\ny()\nEndDo").SameWords
      (.ofText "t.prw" "// c\n WHILE @ x /* d */\n\n  y( )\nendwhile") :=
    ⟨by decide, by decide⟩
  exact ⟨h, (check_spacing .none h).1⟩

end Clipper
