import Clipper.Proofs.Grammar.Completeness.Program
import Clipper.Proofs.Grammar.Shortfall

/-!
Headers that break off at the end of their line. What is due there is missed once, and the body
below is read as below a whole header. This takes that the body begins with nothing that is due:
a header does not ask on which line the rest of it stands.
-/

namespace Clipper.Grammar

/-- Names up to where one is due. -/
inductive ShortNames (o : Spot) : Spot → Prop
  | due : o.next (·.kind == .identifier) = false → ShortNames o o
  | more : t.kind = .identifier → comma.isPunctuation .comma = true →
      ShortNames o ⟨comma.endLine, u⟩ → ShortNames o ⟨l, t :: comma :: u⟩

/-- The header of a routine up to where its name is due, or that of a parameter, or the closing
parenthesis. -/
inductive ShortRoutine (o : Spot) : Spot → Prop
  | name : o.next (·.kind == .identifier) = false → ShortRoutine o o
  | parameter : n.kind = .identifier → paren.isPunctuation .openParen = true →
      paren.line = n.endLine → ShortNames o ⟨paren.endLine, u⟩ →
      ShortRoutine o ⟨l, n :: paren :: u⟩
  | closeParen : n.kind = .identifier → paren.isPunctuation .openParen = true →
      paren.line = n.endLine → Names ns ⟨paren.endLine, u⟩ o →
      ShortRoutine o ⟨l, n :: paren :: u⟩

/-- The rest of the header of a loop with a counter, behind `To`, up to where its bound or its
step falls short. -/
inductive ShortBound (o : Spot) (m : Nat) (c : Context) : Spot → Prop
  | stop : Short o m (.expression c loosest) w s → ShortBound o m c s
  | step : Derives false m (.expression c loosest x) s ⟨l, word :: u⟩ →
      word.isKeyword .kwStep = true → Short o m (.expression c loosest) w ⟨word.endLine, u⟩ →
      ShortBound o m c s

/-- The header of a loop with a counter, behind its first word. -/
inductive ShortLoop (o : Spot) (m : Nat) (c : Context) : Token → Spot → Prop
  | header : n.kind = .identifier → (sign.isOperator .assign || sign.isOperator .equal) = true →
      Derives false m (.expression c loosest x) ⟨sign.endLine, u⟩ ⟨l', mark :: v⟩ →
      mark.isKeyword .kwTo = true → ShortBound o m c ⟨mark.endLine, v⟩ →
      ShortLoop o m c n ⟨l, n :: sign :: u⟩

variable {b t k : Token} {l m : Nat} {v : List Token} {c : Context} {s s' s'' : Spot} {bl : Block}
  {r₀ r : Reader}

/-! ### Routines -/

theorem not_identifier (h : (⟨l, b :: v⟩ : Spot).next (·.kind == .identifier) = false) :
    b.kind ≠ .identifier := by simpa [Spot.next] using h

/-- A name is missed, behind those that are there. -/
theorem ShortNames.lists {what : String} (h : ShortNames ⟨l, b :: v⟩ s) (hr : r₀.Reaches r s) :
    ∃ xs r', Lists (name what) r xs false r' ∧ r₀.Errs r' b ⟨l, b :: v⟩ := by
  induction h generalizing r with
  | due hb =>
      obtain ⟨r', hends, hr'⟩ := misses_name (not_identifier hb) hr
      exact ⟨[], r', .refused hends, hr'⟩
  | more hn hcomma _ ih =>
      obtain ⟨r₁, hrun, h₁⟩ := completes_name hn hr
      obtain ⟨xs, r', hxs, hr'⟩ := ih (h₁.advanced (Token.isEnd_of_punctuation hcomma))
      exact ⟨_, r', .more hrun (by rw [h₁.current, hcomma]) hxs, hr'⟩

theorem ShortNames.misses {what : String} (h : ShortNames ⟨l, b :: v⟩ s)
    (hb : b.isPunctuation .closeParen = false) :
    Misses (listUpTo .closeParen (name what)) false b s ⟨l, b :: v⟩ := by
  intro r₀ r hr
  obtain ⟨xs, r', hxs, hr'⟩ := h.lists hr
  have hxs := (run_listed (steady_name _) hr.sound).mpr hxs
  refine ⟨r', refuses_listUpTo.mpr ⟨?_, .inl ⟨xs, hxs⟩⟩, hr'⟩
  cases h with
  | due _ => rw [hr.current, hb]
  | more hn _ _ => rw [hr.current]; simp [Token.isPunctuation, hn]

/-- Behind a list of parameters that is refused there is nothing to skip on its line. -/
theorem errs_parameters {paren : Token} {u : List Token} {l' : Nat}
    (ht : paren.isPunctuation .openParen = true) (hparen : paren.line = l') (hline : b.line ≠ l)
    (h : Misses (listUpTo .closeParen (name "a parameter name")) false b ⟨paren.endLine, u⟩
      ⟨l, b :: v⟩) (hr : r₀.Reaches r ⟨l', paren :: u⟩) :
    ∃ ps r', Run (parameters c) r ps r' ∧ r₀.Errs r' b ⟨l, b :: v⟩ := by
  obtain ⟨r', hends, hr'⟩ := h (hr.advanced (Token.isEnd_of_punctuation ht))
  refine ⟨[], r', run_parameters.mpr ?_, hr'⟩
  rw [if_pos (by simp [Reader.sameLine, hr.current, ht, hparen, hr.line])]
  exact .inr ⟨r', hends, rfl, hr'.lineSkipped hline⟩

/-- A header that falls short ends in front of the body. -/
theorem ShortRoutine.errs {what : String} (h : ShortRoutine ⟨l, b :: v⟩ s) (hline : b.line ≠ l)
    (hb : b.isPunctuation .closeParen = false) (hr : r₀.Reaches r s) :
    ∃ n r₁ ps r', Run (nameOrMissing what) r n r₁ ∧ Run (parameters c) r₁ ps r' ∧
      r₀.Errs r' b ⟨l, b :: v⟩ := by
  cases h with
  | name hn =>
      have h₁ := hr.expected what
      have habsent : Parameters [] ⟨l, b :: v⟩ ⟨l, b :: v⟩ := .absent (by simp [Spot.next, hline])
      obtain ⟨r', hps, hr'⟩ := completes_parameters (c := c) habsent h₁.reaches
      refine ⟨.missing r.current, _, [], r', run_nameOrMissing.mpr ?_, hps, h₁.trans hr'⟩
      rw [if_neg (by rw [hr.current]; exact not_identifier hn)]
      exact ⟨rfl, rfl⟩
  | parameter hn ht hparen hns =>
      obtain ⟨r₁, hname, h₁⟩ := completes_nameOrMissing hn hr
      obtain ⟨ps, r', hps, hr'⟩ := errs_parameters ht hparen hline (hns.misses hb) h₁
      exact ⟨_, r₁, ps, r', hname, hps, hr'⟩
  | closeParen hn ht hparen hns =>
      obtain ⟨r₁, hname, h₁⟩ := completes_nameOrMissing hn hr
      obtain ⟨ps, r', hps, hr'⟩ := errs_parameters ht hparen hline
        (misses_listUpTo (hns.next_punctuation _) (completes_names hns) hb) h₁
      exact ⟨_, r₁, ps, r', hname, hps, hr'⟩

theorem errs_routine {what : String} {closers : List Keyword} {close : Keyword}
    {closed : Option Token} (h : ShortRoutine ⟨l, b :: v⟩ s) (hline : b.line ≠ l)
    (hbl : Derives false m (.block (c.insideRoutine.enter closers) bl) ⟨l, b :: v⟩ s')
    (hclosed : Closing close closed s' s'') (hr : r₀.Reaches r s) :
    ∃ n ps r', Run (routine (expression m) c what t closers close) r ⟨t, n, ps, bl, closed⟩ r' ∧
      r₀.Errs r' b s'' := by
  have hb : b.isPunctuation .closeParen = false := by
    cases hbl with
    | block hss => exact hss.starts.2.1
  obtain ⟨n, r₁, ps, r₂, hname, hps, h₂⟩ := h.errs (c := c) hline hb hr
  obtain ⟨r₃, hbody, h₃⟩ := hbl.completed trivial rfl h₂.reaches
  obtain ⟨r', hclose, hr'⟩ := completes_keyword? hclosed h₃
  rw [← block_insideRoutine] at hbody
  refine ⟨n, ps, r', run_routine.mpr ⟨n, r₁, ps, r₂, bl, r₃, hname, hps, hbody, closed, hclose,
    rfl⟩, h₂.trans hr'⟩

/-! ### Loops with a counter -/

theorem ShortBound.errs (h : ShortBound ⟨l, b :: v⟩ m c s) (hb : b.IsApart)
    (hstep : b.isKeyword .kwStep = false) (hline : b.line ≠ l) (hr : r₀.Reaches r s) :
    ∃ x r₁ y r', Run (expressionOrMissing (expression m) c loosest) r x r₁ ∧
      Run (stepClause (expression m) c) r₁ y r' ∧ r₀.Errs r' b ⟨l, b :: v⟩ := by
  cases h with
  | stop hshort =>
      obtain ⟨x, r₁, hstop, h₁⟩ := (hshort.misses hb hline).expressionOrMissing hline hr
      have hnone : (⟨l, b :: v⟩ : Spot).next (·.isKeyword .kwStep) = false := by
        simpa [Spot.next] using hstep
      obtain ⟨r', hnostep, hr'⟩ := completes_noStep (e := expression m) (c := c) hnone h₁.reaches
      exact ⟨x, r₁, none, r', hstop, hnostep, h₁.trans hr'⟩
  | step hx hword hshort =>
      obtain ⟨r₁, hstop, h₁⟩ := completes_expressionOrMissing (hx.completed trivial) hr
      obtain ⟨y, r', hrun, hr'⟩ := (hshort.misses hb hline).expressionOrMissing hline
        (h₁.advanced (Token.isEnd_of_keyword hword))
      refine ⟨_, r₁, some y, r', hstop, run_stepClause.mpr ?_, hr'⟩
      rw [if_pos (by rw [h₁.current, hword])]
      exact ⟨y, hrun, rfl⟩

theorem errs_forLoop {n : Token} {u w : List Token} {l₀ l' : Nat} (ht : t.isKeyword .kwFor = true)
    (h : ShortLoop ⟨l, b :: v⟩ m c n ⟨t.endLine, u⟩) (hb : b.IsApart)
    (hstep : b.isKeyword .kwStep = false) (hline : b.line ≠ l)
    (hbl : Derives false m (.block (c.insideExpression.enter [.kwNext]) bl) ⟨l, b :: v⟩
      ⟨l', k :: w⟩) (hk : k.isKeyword .kwNext = true)
    (hcounter : CounterAgain false n ⟨k.endLine, w⟩ s') (hr : r₀.Reaches r ⟨l₀, t :: u⟩) :
    ∃ x y z r', Yields (operand (expression m) c) r (.forLoop t ⟨n⟩ x y z bl (some k)) r' ∧
      r₀.Errs r' b s' := by
  obtain ⟨hn, hsign, hx, hmark, hbound⟩ := h
  rename Expr => x
  obtain ⟨r₁, hname, h₁⟩ := completes_nameOrMissing hn (hr.advanced (Token.isEnd_of_keyword ht))
  obtain ⟨r₂, hsigned, h₂⟩ := completes_counterSign (n := ⟨n⟩) hsign h₁
  obtain ⟨r₃, hstart, h₃⟩ := completes_expressionOrMissing (hx.completed trivial) h₂
  obtain ⟨r₄, hto, h₄⟩ := completes_requireKeyword hmark h₃
  obtain ⟨y, r₅, z, r₆, hstop, hclause, h₆⟩ := hbound.errs hb hstep hline h₄
  obtain ⟨r₇, hbody, h₇⟩ := hbl.completed trivial rfl h₆.reaches
  obtain ⟨r₈, hclose, h₈⟩ := completes_closing t hk h₇
  obtain ⟨r', hagain, hr'⟩ := completes_repeatedCounter hcounter h₈
  rw [(Counted.again hcounter).1 rfl] at hr'
  refine ⟨x, y, z, r', yields_operand.mpr ⟨.forLoop, ?_, yields_lift.mpr (run_forLoop.mpr ⟨⟨n⟩, r₁,
    r₂, x, r₃, r₄, y, r₅, z, r₆, bl, r₇, some k, r₈, hname, hsigned, hstart, hto, hstop, hclause,
    hbody, ?_⟩)⟩, h₆.trans hr'⟩
  · rw [hr.current]
    exact Starter.begins_iff.mpr ht
  · rw [hr.current]
    exact ⟨hclose, hagain, rfl⟩

/-! ### Both -/

/-- A header that falls short, with a body that begins on the next line, is read with one error,
about the first token of the body. The body is kept, and reading goes on behind the end. -/
theorem header_short (hline : b.line ≠ l) :
    (∀ what t closers close ⦃m c bl closed s s' s'' r⦄,
      ShortRoutine ⟨l, b :: v⟩ s →
      Derives false m (.block (c.insideRoutine.enter closers) bl) ⟨l, b :: v⟩ s' →
      Closing close closed s' s'' → r.Clear → r.spot = s →
      ∃ n ps r', Run (routine (expression m) c what t closers close) r ⟨t, n, ps, bl, closed⟩ r' ∧
        r.Errs r' b s'') ∧
    (b.IsApart → b.isKeyword .kwStep = false → ∀ ⦃m c bl t n k l₀ l' u w s' r⦄,
      t.isKeyword .kwFor = true → ShortLoop ⟨l, b :: v⟩ m c n ⟨t.endLine, u⟩ →
      Derives false m (.block (c.insideExpression.enter [.kwNext]) bl) ⟨l, b :: v⟩ ⟨l', k :: w⟩ →
      k.isKeyword .kwNext = true → CounterAgain false n ⟨k.endLine, w⟩ s' →
      r.Clear → r.spot = ⟨l₀, t :: u⟩ →
      ∃ x y z r', Yields (operand (expression m) c) r (.forLoop t ⟨n⟩ x y z bl (some k)) r' ∧
        r.Errs r' b s') := by
  constructor
  · intro what t closers close m c bl closed s s' s'' r h hbl hclosed hr hspot
    exact errs_routine h hline hbl hclosed (hspot ▸ Reader.Reaches.refl hr)
  · intro hb hstep m c bl t n k l₀ l' u w s' r ht h hbl hk hcounter hr hspot
    exact errs_forLoop ht h hb hstep hline hbl hk hcounter (hspot ▸ Reader.Reaches.refl hr)

/-- A list of parameters that breaks off, and a loop without its bound. -/
theorem header_short_return :
    (∃ t n ps bl r',
      Run (routine (expression maxDepth) .file "a function name" t functionClosers .kwEndFunction)
        (Reader.ofStream (.ofText "t.prw" "Function F(a,\nReturn a\n")).advanced
        ⟨t, n, ps, bl, none⟩ r' ∧
      bl.statements.length = 1 ∧ r'.faults.size = 1) ∧
    ∃ t n x y z bl k r',
      Yields (operand (expression maxDepth) .file)
        (.ofStream (.ofText "t.prw" "For i := 1 To\nReturn\nNext\n"))
        (.forLoop t n x y z bl (some k)) r' ∧
      bl.statements.length = 1 ∧ r'.faults.size = 1 := by
  have hsize : ∀ {r r' : Reader} {b s}, r.faults = #[] → r.Errs r' b s → r'.faults.size = 1 := by
    intro r r' b s hr hr'
    obtain ⟨f, -, -, hf⟩ := hr'.error
    simp [hf, hr]
  constructor
  · have hbegun := reaches_ofStream (TokenStream.closed_ofText "t.prw" "Function F(a,\nReturn a\n")
      (by decide +kernel)
    have htokens : (TokenStream.ofText "t.prw" "Function F(a,\nReturn a\n").toList =
        [⟨.keyword .kwFunction, "Function", ⟨0, 8⟩, 1, 1, "t.prw"⟩,
          ⟨.identifier, "F", ⟨9, 10⟩, 1, 10, "t.prw"⟩,
          ⟨.punctuation .openParen, "(", ⟨10, 11⟩, 1, 11, "t.prw"⟩,
          ⟨.identifier, "a", ⟨11, 12⟩, 1, 12, "t.prw"⟩,
          ⟨.punctuation .comma, ",", ⟨12, 13⟩, 1, 13, "t.prw"⟩,
          ⟨.keyword .kwReturn, "Return", ⟨14, 20⟩, 2, 1, "t.prw"⟩,
          ⟨.identifier, "a", ⟨21, 22⟩, 2, 8, "t.prw"⟩,
          ⟨.endOfInput, "", ⟨23, 23⟩, 3, 1, "t.prw"⟩] := by decide +kernel
    rw [htokens] at hbegun
    have hname := hbegun.advanced rfl
    obtain ⟨n, ps, r', hrun, hr'⟩ :=
      (header_short (by decide)).1 _
        (Reader.ofStream (.ofText "t.prw" "Function F(a,\nReturn a\n")).current functionClosers _
        (m := maxDepth) (c := .file) (.parameter rfl rfl rfl (.more rfl rfl (.due rfl)))
        (.block (.statements rfl (.returnValue rfl rfl (.expression (.name (.inl rfl)) (.stop rfl))
          rfl) (.noStatements rfl)))
        (.absent rfl) hname.clear hname.spot
    exact ⟨_, n, ps, _, r', hrun, rfl, hsize (by decide +kernel) hr'⟩
  · have hbegun := reaches_ofStream
      (TokenStream.closed_ofText "t.prw" "For i := 1 To\nReturn\nNext\n") (by decide +kernel)
    have htokens : (TokenStream.ofText "t.prw" "For i := 1 To\nReturn\nNext\n").toList =
        [⟨.keyword .kwFor, "For", ⟨0, 3⟩, 1, 1, "t.prw"⟩,
          ⟨.identifier, "i", ⟨4, 5⟩, 1, 5, "t.prw"⟩,
          ⟨.operator .assign, ":=", ⟨6, 8⟩, 1, 7, "t.prw"⟩,
          ⟨.integer, "1", ⟨9, 10⟩, 1, 10, "t.prw"⟩,
          ⟨.keyword .kwTo, "To", ⟨11, 13⟩, 1, 12, "t.prw"⟩,
          ⟨.keyword .kwReturn, "Return", ⟨14, 20⟩, 2, 1, "t.prw"⟩,
          ⟨.keyword .kwNext, "Next", ⟨21, 25⟩, 3, 1, "t.prw"⟩,
          ⟨.endOfInput, "", ⟨26, 26⟩, 4, 1, "t.prw"⟩] := by decide +kernel
    rw [htokens] at hbegun
    obtain ⟨x, y, z, r', hrun, hr'⟩ :=
      (header_short (by decide)).2 (.of_keyword rfl rfl) rfl (m := maxDepth) (c := .file) rfl
        (.header rfl rfl (.expression (.integer rfl (by decide)) (.stop rfl)) rfl
          (.stop (.alone .operand)))
        (.block (.statements rfl (.returnNothing rfl rfl) (.noStatements rfl))) rfl (.absent rfl)
        hbegun.clear hbegun.spot
    exact ⟨_, _, x, y, z, _, _, r', hrun, rfl, hsize (by decide +kernel) hr'⟩

/-- Without `To` the bound is missed as well. Without the bound the first statement of the body
becomes the bound, and nothing is reported. -/
theorem header_runs_on :
    (Parsed.ofSource "For i := 1 To 3\nReturn\nNext\n" "t.prw").faults = [] ∧
    (Parsed.ofSource "For i := 1\nReturn\nNext\n" "t.prw").faults.map
        (fun f => (f.diagnostic.line, f.diagnostic.message)) =
      [(2, "expected 'To', found 'Return'"), (2, "expected an expression, found 'Return'")] ∧
    (Parsed.ofSource "For i := 1 To 3\nx = 1\nNext\n" "t.prw").faults = [] ∧
    (Parsed.ofSource "For i := 1 To\nx = 1\nNext\n" "t.prw").faults = [] := by
  decide +kernel

end Clipper.Grammar
