import Clipper.Proofs.Grammar.Spot

/-!
Completeness of the reading of statements: what the grammar derives is read as it is
derived, without a fault. Every production is put together from the runs of its parts, in
the order of the text.
-/

namespace Clipper

namespace Token

variable {t : Token}

theorem isEnd_of_kind {k : TokenKind} (h : t.kind = k) (hk : (k != .endOfInput) = true) :
    t.isEnd = false := by
  rw [isEnd, h]
  simpa using hk

theorem isEnd_of_keyword {k : Keyword} (h : t.isKeyword k = true) : t.isEnd = false :=
  isEnd_of_kind (by simpa [isKeyword] using h) rfl

theorem isEnd_of_storage (h : Grammar.isStorage t.kind = true) : t.isEnd = false := by
  cases hk : t.kind <;> simp_all [Grammar.isStorage, isEnd]

theorem isEnd_of_punctuation {p : Punctuation} (h : t.isPunctuation p = true) : t.isEnd = false :=
  isEnd_of_kind (by simpa [isPunctuation] using h) rfl

theorem isEnd_of_operator {o : Operator} (h : t.isOperator o = true) : t.isEnd = false :=
  isEnd_of_kind (by simpa [isOperator] using h) rfl

end Token

namespace Reader

variable {r r' : Reader} {c : Context} {s : Spot} {l : Nat} {t : Token} {u : List Token}

/-- Where no illegal character lies ahead nothing is reported on the way. -/
theorem faults_advanced (h : ∀ t ∈ r.ahead, t.isIllegal = false) :
    r.advanced.faults = r.faults := by
  have htake : r.ahead.takeWhile Token.isIllegal = [] := by
    cases hahead : r.ahead with
    | nil => rfl
    | cons t ts => simp [h t (hahead ▸ List.mem_cons_self)]
  change r.faults ++ ((r.ahead.takeWhile Token.isIllegal).map Fault.illegalCharacter) = _
  simp [htake]

theorem legal_advanced (h : ∀ t ∈ r.ahead, t.isIllegal = false) :
    ∀ t ∈ r.advanced.ahead, t.isIllegal = false := fun t ht =>
  h t ((List.dropWhile_suffix _).subset (List.mem_of_mem_tail ht))

/-- No illegal character lies ahead and nothing keeps the reader silent. -/
structure Clear (r : Reader) : Prop extends r.Sound where
  unmuted : r.muted = false
  legal : ∀ t ∈ r.ahead, t.isIllegal = false

/-- Without a fault the reader has come to a spot. -/
structure Reaches (r r' : Reader) (s : Spot) : Prop where
  clear : r'.Clear
  faults : r'.faults = r.faults
  spot : r'.spot = s

/-- The reader with more faults found. -/
def warned (r : Reader) (ws : List Fault) : Reader := { r with faults := r.faults ++ ws }

namespace Reaches

/-- What has been found on two ways, one behind the other. -/
theorem warned_append {ws vs : List Fault} (h : ((r.warned ws).warned vs).Reaches r' s) :
    (r.warned (ws ++ vs)).Reaches r' s := by
  have hfaults : (r.warned ws).warned vs = r.warned (ws ++ vs) := by
    simp [warned, ← Array.toList_inj]
  rwa [← hfaults]

variable (h : r.Reaches r' s)

include h

theorem sound : r'.Sound := h.clear.toSound

theorem next (p : Token → Bool) : p r'.current = s.next p := by
  rw [← h.spot, next_spot h.sound]

theorem stops : r'.stops c = s.stops c := by rw [← h.spot, stops_spot h.sound]

theorem blockEnds : (r'.atEnd || r'.atAny c.closers) = s.blockEnds c := by
  rw [← h.spot, blockEnds_spot h.sound]

theorem moreMembers : Grammar.moreMembers c r' = s.moreMembers c := by
  rw [← h.spot, moreMembers_spot h.sound]

theorem link? (p : Nat) : Grammar.link? c p r' = s.link? c p := by
  rw [← h.spot, link?_spot h.sound]

theorem line : r'.line = s.line := congrArg Spot.line h.spot

theorem settled : r.Reaches (r'.settled c) s := by
  have hsettled : r'.settled c = r' := by
    have := h.clear.unmuted
    cases r'
    unfold Reader.settled
    split <;> simp_all
  rwa [hsettled]

omit h

theorem current (h : r.Reaches r' ⟨l, t :: u⟩) : r'.current = t := by
  have hhead := head?_spot h.sound
  rw [h.spot] at hhead
  exact (Option.some.inj hhead).symm

/-- One token further. -/
theorem advanced (h : r.Reaches r' ⟨l, t :: u⟩) (ht : t.isEnd = false) :
    r.Reaches r'.advanced ⟨t.endLine, u⟩ := by
  have hlegal := h.clear.legal
  have hend : r'.atEnd = false := by rw [atEnd, h.current, ht]
  refine ⟨⟨sound_advanced h.sound, h.clear.unmuted, legal_advanced hlegal⟩, ?_, ?_⟩
  · rw [faults_advanced hlegal, h.faults]
  · have heq := spot_eq h.sound hend
    rw [h.spot] at heq
    have hrest := (List.cons.inj (congrArg Spot.rest heq)).2
    rw [hrest, ← h.current]
    rfl

/-- Something is found on the spot. -/
theorem reported (h : r.Reaches r' s) {f : Fault} (hf : f.illegal? = none) :
    (r.warned [f]).Reaches (r'.reported f) s where
  clear :=
    { toSound := (onward_reported h.sound f hf).sound
      unmuted := by simpa using h.clear.unmuted
      legal := by simpa using h.clear.legal }
  faults := by simp [Reader.reported, h.clear.unmuted, h.faults, warned]
  spot := by simpa [Reader.spot] using h.spot

end Reaches

end Reader

namespace Grammar

variable {α : Type} {e : Expressions} {c : Context} {s s' s'' : Spot} {l : Nat} {t : Token}
  {u : List Token} {ws vs : List Fault}

/-- Begun at a spot, the reading ends with `x` at another one. -/
def Completes (m : Reading α) (x : α) (s s' : Spot) : Prop :=
  ∀ ⦃r₀ r : Reader⦄, r₀.Reaches r s → ∃ r', Run m r x r' ∧ r₀.Reaches r' s'

/-- Begun at a spot, the reading ends with `x` at another one, and finds these faults. -/
def Warns (ws : List Fault) (m : Reading α) (x : α) (s s' : Spot) : Prop :=
  ∀ ⦃r₀ r : Reader⦄, r₀.Reaches r s → ∃ r', Run m r x r' ∧ (r₀.warned ws).Reaches r' s'

theorem warns_nil {m : Reading α} {x : α} : Warns [] m x s s' ↔ Completes m x s s' := Iff.rfl

theorem Completes.warns {m : Reading α} {x : α} (h : Completes m x s s') : Warns [] m x s s' := h

namespace Warns

theorem single {a : Attempt α} {x : α} (h : Warns ws a.run (.ok x) s s') :
    Warns ws (single a) ([x], true) s s' := by
  intro r₀ r hr
  obtain ⟨r', hrun, hr'⟩ := h hr
  exact ⟨r', run_single.mpr (.inl ⟨x, hrun, rfl⟩), hr'⟩

theorem recovering {body : Reading (List α × Bool)} {xs : List α}
    (h : Warns ws body (xs, true) s s') : Warns ws (recovering c body) xs s s' := by
  intro r₀ r hr
  obtain ⟨r', hrun, hr'⟩ := h hr
  exact ⟨r', run_recovering.mpr ⟨true, r', hrun, rfl⟩, hr'⟩

theorem wholeStatement {body : Reading (List Stmt × Bool)} {ss : List Stmt}
    (h : Warns ws body (ss, true) s s') : Warns ws (wholeStatement c body) ss s s' := by
  intro r₀ r hr
  obtain ⟨r', hrun, hr'⟩ := h.recovering (c := c) hr
  exact ⟨r'.settled c, run_wholeStatement.mpr ⟨r', hrun, rfl⟩, hr'.settled⟩

/-! ### Lists -/

section Listed

variable {item : Attempt α} (hitem : Steady item.run) {x : α} {xs : List α}

include hitem

theorem listed_last (hx : Warns ws item.run (.ok x) s s')
    (hcomma : s'.next (·.isPunctuation .comma) = false) :
    Warns ws (listed item) ([x], true) s s' := by
  intro r₀ r hr
  obtain ⟨r', hrun, hr'⟩ := hx hr
  exact ⟨r', (run_listed hitem hr.sound).mpr (.last hrun ((hr'.next _).trans hcomma)), hr'⟩

theorem listed_more (hx : Warns ws item.run (.ok x) s ⟨l, t :: u⟩)
    (hcomma : t.isPunctuation .comma = true)
    (hxs : Warns vs (listed item) (xs, true) ⟨t.endLine, u⟩ s') :
    Warns (ws ++ vs) (listed item) (x :: xs, true) s s' := by
  intro r₀ r hr
  obtain ⟨r₁, hrun, h₁⟩ := hx hr
  have ha := h₁.advanced (Token.isEnd_of_punctuation hcomma)
  obtain ⟨r', hrest, hr'⟩ := hxs ha
  refine ⟨r', (run_listed hitem hr.sound).mpr (.more hrun ?_ ?_), hr'.warned_append⟩
  · rw [h₁.current, hcomma]
  · exact (run_listed hitem ha.sound).mp hrest

omit hitem in
theorem listUpTo_nil {close : Punctuation} (ht : t.isPunctuation close = true) :
    Warns [] (listUpTo close item).run (.ok []) ⟨l, t :: u⟩ ⟨t.endLine, u⟩ := by
  intro r₀ r hr
  refine ⟨r.advanced, yields_listUpTo.mpr ?_, hr.advanced (Token.isEnd_of_punctuation ht)⟩
  rw [if_pos (by rw [hr.current, ht])]
  exact ⟨rfl, rfl⟩

omit hitem in
theorem listUpTo {close : Punctuation} (hs : s.next (·.isPunctuation close) = false)
    (hxs : Warns ws (listed item) (xs, true) s ⟨l, t :: u⟩) (ht : t.isPunctuation close = true) :
    Warns ws (listUpTo close item).run (.ok xs) s ⟨t.endLine, u⟩ := by
  intro r₀ r hr
  obtain ⟨r₁, hrun, h₁⟩ := hxs hr
  refine ⟨r₁.advanced, yields_listUpTo.mpr ?_, h₁.advanced (Token.isEnd_of_punctuation ht)⟩
  rw [if_neg (by simp [hr.next (·.isPunctuation close), hs])]
  exact ⟨r₁, hrun, by rw [h₁.current, ht], rfl⟩

end Listed

section Repeated

variable {more : Reader → Bool} {body : Reading (List α)} {xs ys : List α}
  (hround : ∀ ⦃r xs r'⦄, r.Sound → more r = true → Run body r xs r' → r.Past r')

include hround

theorem repeated_stop (hmore : ∀ ⦃r₀ r : Reader⦄, r₀.Reaches r s → more r = false) :
    Warns [] (repeated more body) [] s s := fun _ r hr =>
  ⟨r, (run_repeated hround hr.sound).mpr (.stop (hmore hr)), hr⟩

theorem repeated_round (hmore : ∀ ⦃r₀ r : Reader⦄, r₀.Reaches r s → more r = true)
    (hxs : Warns ws body xs s s') (hys : Warns vs (repeated more body) ys s' s'') :
    Warns (ws ++ vs) (repeated more body) (xs ++ ys) s s'' := by
  intro r₀ r hr
  obtain ⟨r₁, hrun, h₁⟩ := hxs hr
  obtain ⟨r', hrest, hr'⟩ := hys h₁
  refine ⟨r', (run_repeated hround hr.sound).mpr (.round (hmore hr) hrun ?_), hr'.warned_append⟩
  exact (run_repeated hround h₁.sound).mp hrest

end Repeated

end Warns

/-! ### Tokens and names -/

theorem completes_name {what : String} {n : Token} (hn : n.kind = .identifier) :
    Completes (name what).run (.ok ⟨n⟩) ⟨l, n :: u⟩ ⟨n.endLine, u⟩ := by
  intro r₀ r hr
  have hcurrent := hr.current
  exact ⟨r.advanced, yields_name.mpr ⟨by rw [hcurrent, hn], by rw [hcurrent], rfl⟩,
    hr.advanced (Token.isEnd_of_kind hn rfl)⟩

theorem completes_names {what : String} {ns : List Name} (h : Names ns s s') :
    Completes (listed (name what)) (ns, true) s s' := by
  induction h with
  | last hn hcomma =>
      exact warns_nil.mp (.listed_last (steady_name _) (completes_name hn).warns hcomma)
  | more hn hcomma _ ih =>
      exact warns_nil.mp (.listed_more (steady_name _) (completes_name hn).warns hcomma ih.warns)

theorem completes_nameOrMissing {what : String} {n : Token} (hn : n.kind = .identifier) :
    Completes (nameOrMissing what) ⟨n⟩ ⟨l, n :: u⟩ ⟨n.endLine, u⟩ := by
  intro r₀ r hr
  have hcurrent := hr.current
  refine ⟨r.advanced, run_nameOrMissing.mpr ?_, hr.advanced (Token.isEnd_of_kind hn rfl)⟩
  rw [if_pos (by rw [hcurrent, hn]), hcurrent]
  exact ⟨rfl, rfl⟩

theorem completes_closing {k : Keyword} (opener : Token) (ht : t.isKeyword k = true) :
    Completes (closing k opener) (some t) ⟨l, t :: u⟩ ⟨t.endLine, u⟩ := by
  intro r₀ r hr
  have hcurrent := hr.current
  refine ⟨r.advanced, run_closing.mpr ?_, hr.advanced (Token.isEnd_of_keyword ht)⟩
  rw [if_pos (by rw [hcurrent, ht]), hcurrent]
  exact ⟨rfl, rfl⟩

theorem completes_keyword? {k : Keyword} {closed : Option Token} (h : Closing k closed s s') :
    Completes (keyword? k) closed s s' := by
  intro r₀ r hr
  cases h with
  | absent hk =>
      refine ⟨r, run_keyword?.mpr ?_, hr⟩
      rw [if_neg (by simp [hr.next (·.isKeyword k), hk])]
      exact ⟨rfl, rfl⟩
  | word ht =>
      have hcurrent := hr.current
      refine ⟨r.advanced, run_keyword?.mpr ?_, hr.advanced (Token.isEnd_of_keyword ht)⟩
      rw [if_pos (by rw [hcurrent, ht]), hcurrent]
      exact ⟨rfl, rfl⟩

theorem completes_requireKeyword {k : Keyword} (ht : t.isKeyword k = true) :
    Completes (requireKeyword k) () ⟨l, t :: u⟩ ⟨t.endLine, u⟩ := by
  intro r₀ r hr
  refine ⟨r.advanced, run_requireKeyword.mpr ?_, hr.advanced (Token.isEnd_of_keyword ht)⟩
  rw [if_pos (by rw [hr.current, ht])]

theorem completes_endOfStatement (hstops : s.stops c = true) :
    Completes (succeeds (endOfStatement c)) true s s := fun _ r hr =>
  ⟨r, run_succeeds.mpr (.inl ⟨yields_endOfStatement.mpr ⟨hr.stops.trans hstops, rfl⟩, rfl⟩), hr⟩

theorem Names.next_punctuation {ns : List Name} (h : Names ns s s') (p : Punctuation) :
    s.next (·.isPunctuation p) = false := by
  cases h with
  | last hn _ => simp [Spot.next, Token.isPunctuation, hn]
  | more hn _ _ => simp [Spot.next, Token.isPunctuation, hn]

theorem completes_parameters {ns : List Name} (h : Parameters ns s s') :
    Completes (parameters c) ns s s' := by
  -- Both kinds of list stand between parentheses.
  have hlist : ∀ {o xs l} {ts : List Token}, o.isPunctuation .openParen = true → o.line = l →
      Completes (listUpTo .closeParen (name "a parameter name")).run (.ok xs) ⟨o.endLine, ts⟩ s' →
      Completes (parameters c) xs ⟨l, o :: ts⟩ s' := by
    intro o xs l ts ho hline hxs r₀ r hr
    obtain ⟨r', hrun, hr'⟩ := hxs (hr.advanced (Token.isEnd_of_punctuation ho))
    refine ⟨r', run_parameters.mpr ?_, hr'⟩
    rw [if_pos (by simp [Reader.sameLine, hr.current, ho, hline, hr.line])]
    exact .inl hrun
  cases h with
  | absent ho =>
      intro r₀ r hr
      have hnext := (hr.next _).trans ho
      refine ⟨r, run_parameters.mpr ?_, hr⟩
      rw [if_neg (by simpa [Reader.sameLine, hr.line] using hnext)]
      exact ⟨rfl, rfl⟩
  | empty ho hline hc => exact hlist ho hline (warns_nil.mp (.listUpTo_nil hc))
  | names ho hline hns hc =>
      exact hlist ho hline
        (warns_nil.mp (.listUpTo (hns.next_punctuation _) (completes_names hns).warns hc))

/-! ### Statements -/

theorem completes_expressionOrMissing {p : Nat} {x : Expr}
    (hx : Warns ws (e c p).run (.ok x) s s') : Warns ws (expressionOrMissing e c p) x s s' := by
  intro r₀ r hr
  obtain ⟨r', hrun, hr'⟩ := hx hr
  exact ⟨r', run_expressionOrMissing.mpr (.inl hrun), hr'⟩

theorem completes_declared {n : Token} (hn : n.kind = .identifier)
    (hsign : (⟨n.endLine, u⟩ : Spot).next (·.isOperator .assign) = false) :
    Completes (declarator e c).run (.ok (⟨n⟩, none)) ⟨l, n :: u⟩ ⟨n.endLine, u⟩ := by
  intro r₀ r hr
  have ha := hr.advanced (Token.isEnd_of_kind hn rfl)
  refine ⟨r.advanced, yields_declarator.mpr ⟨by rw [hr.current, hn], ?_⟩, ha⟩
  rw [if_neg (by simp [ha.next (·.isOperator .assign), hsign]), hr.current]
  exact ⟨rfl, rfl⟩

theorem completes_initialized {n sign : Token} {x : Expr} (hn : n.kind = .identifier)
    (hsign : sign.isOperator .assign = true)
    (hx : Warns ws (e c loosest).run (.ok x) ⟨sign.endLine, u⟩ s') :
    Warns ws (declarator e c).run (.ok (⟨n⟩, some x)) ⟨l, n :: sign :: u⟩ s' := by
  intro r₀ r hr
  have ha := hr.advanced (Token.isEnd_of_kind hn rfl)
  obtain ⟨r', hrun, hr'⟩ :=
    completes_expressionOrMissing hx (ha.advanced (Token.isEnd_of_operator hsign))
  refine ⟨r', yields_declarator.mpr ⟨by rw [hr.current, hn], ?_⟩, hr'⟩
  rw [if_pos (by rw [ha.current, hsign]), hr.current]
  exact ⟨x, hrun, rfl⟩

theorem completes_variableList {ds : List (Name × Option Expr)} (ht : t.isEnd = false)
    (hds : Warns ws (listed (declarator e c)) (ds, true) ⟨t.endLine, u⟩ s')
    (hstops : s'.stops c = true) :
    Warns ws (variableList e c) (ds.map fun d => .variable t (storageOf t) d.1 d.2, true)
      ⟨l, t :: u⟩ s' := by
  intro r₀ r hr
  obtain ⟨r₁, hrun, h₁⟩ := hds (hr.advanced ht)
  obtain ⟨r', hends, hr'⟩ := completes_endOfStatement hstops h₁
  exact ⟨r', run_variableList.mpr ⟨ds, true, r₁, hrun, true, hends, by rw [hr.current]⟩, hr'⟩

theorem completes_returnNothing (ht : t.isEnd = false)
    (hstops : (⟨t.endLine, u⟩ : Spot).stops c = true) :
    Completes (returned e c).run (.ok (.ret t none)) ⟨l, t :: u⟩ ⟨t.endLine, u⟩ := by
  intro r₀ r hr
  have ha := hr.advanced ht
  have hs := ha.stops.trans hstops
  refine ⟨r.advanced, yields_returned.mpr ⟨none, yields_returnedValue.mpr ?_, hs, ?_⟩, ha⟩
  · rw [if_pos hs]
    exact ⟨rfl, rfl⟩
  · rw [hr.current]

theorem completes_returnValue {x : Expr} (ht : t.isEnd = false)
    (hgoes : (⟨t.endLine, u⟩ : Spot).stops c = false)
    (hx : Warns ws (e c loosest).run (.ok x) ⟨t.endLine, u⟩ s') (hstops : s'.stops c = true) :
    Warns ws (returned e c).run (.ok (.ret t (some x))) ⟨l, t :: u⟩ s' := by
  intro r₀ r hr
  have ha := hr.advanced ht
  obtain ⟨r', hrun, hr'⟩ := hx ha
  refine ⟨r', yields_returned.mpr
    ⟨some x, yields_returnedValue.mpr ?_, hr'.stops.trans hstops, ?_⟩, hr'⟩
  · rw [if_neg (by simp [ha.stops.trans hgoes])]
    exact ⟨x, hrun, rfl⟩
  · rw [hr.current]

theorem completes_expressionStatement {x : Expr}
    (hx : Warns ws (e c loosest).run (.ok x) ⟨l, t :: u⟩ s') (hstops : s'.stops c = true) :
    Warns ws (expressionStatement e c).run (.ok (.expression t x)) ⟨l, t :: u⟩ s' := by
  intro r₀ r hr
  obtain ⟨r', hrun, hr'⟩ := hx hr
  exact ⟨r', yields_expressionStatement.mpr
    ⟨x, hrun, hr'.stops.trans hstops, by rw [hr.current]⟩, hr'⟩

/-- Where a plain statement begins it is the statement that is read. -/
theorem completes_plain {ss : List Stmt} (ht : opensPlain t.kind = true)
    (h : Warns ws (plain e c) (ss, true) ⟨l, t :: u⟩ s') :
    Warns ws (statement e c) ss ⟨l, t :: u⟩ s' := by
  refine .wholeStatement fun r₀ r hr => ?_
  obtain ⟨r', hrun, hr'⟩ := h hr
  have hplain := opensFunction_of_plain (r := r) (by rw [hr.current, ht])
  refine ⟨r', run_general.mpr ?_, hr'⟩
  simp only [hplain.1, hplain.2, Bool.false_eq_true, if_false]
  split <;> exact hrun

theorem completes_variables {ds : List (Name × Option Expr)} (ht : isStorage t.kind = true)
    (hds : Warns ws (listed (declarator e c)) (ds, true) ⟨t.endLine, u⟩ s')
    (hstops : s'.stops c = true) :
    Warns ws (statement e c) (ds.map fun d => .variable t (storageOf t) d.1 d.2)
      ⟨l, t :: u⟩ s' := by
  have hend : t.isEnd = false := Token.isEnd_of_storage ht
  refine completes_plain (by simp [opensPlain, ht]) fun r₀ r hr => ?_
  obtain ⟨r', hrun, hr'⟩ := completes_variableList hend hds hstops hr
  exact ⟨r', run_plain.mpr (by rwa [if_pos (by rw [hr.current, ht])]), hr'⟩

theorem completes_return {x : Stmt} (ht : t.isKeyword .kwReturn = true)
    (h : Warns ws (returned e c).run (.ok x) ⟨l, t :: u⟩ s') :
    Warns ws (statement e c) [x] ⟨l, t :: u⟩ s' := by
  have hk : t.kind = .keyword .kwReturn := by simpa [Token.isKeyword] using ht
  refine completes_plain (by simp [opensPlain, hk]) fun r₀ r hr => ?_
  obtain ⟨r', hrun, hr'⟩ := h.single hr
  refine ⟨r', run_plain.mpr ?_, hr'⟩
  rw [hr.current, if_neg (by simp [isStorage, hk]), if_pos ht]
  exact hrun

theorem completes_value {x : Stmt} (ht : opensExpression t.kind = true)
    (hstorage : isStorage t.kind = false) (hreturn : t.isKeyword .kwReturn = false)
    (h : Warns ws (expressionStatement e c).run (.ok x) ⟨l, t :: u⟩ s') :
    Warns ws (statement e c) [x] ⟨l, t :: u⟩ s' := by
  refine completes_plain (by simp [opensPlain, ht]) fun r₀ r hr => ?_
  obtain ⟨r', hrun, hr'⟩ := h.single hr
  refine ⟨r', run_plain.mpr ?_, hr'⟩
  rw [hr.current, if_neg (by simp [hstorage]), if_neg (by simp [hreturn]), if_pos ht]
  exact hrun

/-! ### Blocks and declarations -/

theorem completes_block {statement : Context → Reading (List Stmt)} {closers : List Keyword}
    {ss : List Stmt}
    (h : Warns ws (repeated (fun r => !r.atEnd && !r.atAny (c.enter closers).closers)
      (statement (c.enter closers))) ss ⟨l, t :: u⟩ s') :
    Warns ws (block statement c closers) ⟨t, ss⟩ ⟨l, t :: u⟩ s' := by
  intro r₀ r hr
  obtain ⟨r', hrun, hr'⟩ := h hr
  exact ⟨r', run_block.mpr ⟨ss, hrun, by rw [hr.current]⟩, hr'⟩

theorem completes_routine {what : String} {n : Token} {ps : List Name} {closers : List Keyword}
    {close : Keyword} {b : Block} {closed : Option Token} {s₁ s₂ : Spot}
    (hn : n.kind = .identifier) (hps : Parameters ps ⟨n.endLine, u⟩ s₁)
    (hb : Warns ws (block (statement e) c.insideRoutine closers) b s₁ s₂)
    (hc : Closing close closed s₂ s') :
    Warns ws (routine e c what t closers close) ⟨t, ⟨n⟩, ps, b, closed⟩ ⟨l, n :: u⟩ s' := by
  intro r₀ r hr
  obtain ⟨r₁, hname, h₁⟩ := completes_nameOrMissing hn hr
  obtain ⟨r₂, hparameters, h₂⟩ := completes_parameters hps h₁
  obtain ⟨r₃, hbody, h₃⟩ := hb h₂
  obtain ⟨r', hclose, hr'⟩ := completes_keyword? hc h₃
  rw [← block_insideRoutine] at hbody
  exact ⟨r', run_routine.mpr ⟨⟨n⟩, r₁, ps, r₂, b, r₃, hname, hparameters, hbody, closed, hclose,
    rfl⟩, hr'⟩

theorem completes_function {x : Routine} (hc : c.inRoutine = false)
    (ht : t.isKeyword .kwFunction = true)
    (hx : Warns ws (routine e c "a function name" t functionClosers .kwEndFunction) x
      ⟨t.endLine, u⟩ s') :
    Warns ws (statement e c) [.function false x] ⟨l, t :: u⟩ s' := by
  refine .wholeStatement fun r₀ r hr => ?_
  have hcurrent := hr.current
  obtain ⟨r', hrun, hr'⟩ := hx (hr.advanced (Token.isEnd_of_keyword ht))
  have hstatic : t.isKeyword .kwStatic = false := by simp_all [Token.isKeyword]
  refine ⟨r', run_general.mpr ?_, hr'⟩
  rw [if_neg (by simp [hc]), if_pos (by simp [opensFunction, hcurrent, ht])]
  refine ⟨_, run_function.mpr ⟨x, ?_, rfl⟩, by rw [hcurrent, hstatic]⟩
  rwa [hcurrent, if_neg (by simp [hstatic])]

theorem completes_staticFunction {f : Token} {x : Routine} (hc : c.inRoutine = false)
    (ht : t.isKeyword .kwStatic = true) (hf : f.isKeyword .kwFunction = true)
    (hx : Warns ws (routine e c "a function name" t functionClosers .kwEndFunction) x
      ⟨f.endLine, u⟩ s') :
    Warns ws (statement e c) [.function true x] ⟨l, t :: f :: u⟩ s' := by
  refine .wholeStatement fun r₀ r hr => ?_
  have hcurrent := hr.current
  have ha := hr.advanced (Token.isEnd_of_keyword ht)
  have hnext : r.next = f := ha.current
  obtain ⟨r', hrun, hr'⟩ := hx (ha.advanced (Token.isEnd_of_keyword hf))
  refine ⟨r', run_general.mpr ?_, hr'⟩
  rw [if_neg (by simp [hc]), if_pos (by simp [opensFunction, hcurrent, hnext, ht, hf])]
  refine ⟨_, run_function.mpr ⟨x, ?_, rfl⟩, by rw [hcurrent, ht]⟩
  rwa [hcurrent, if_pos ht]

theorem completes_parentClass {parent : Option Name} (h : Parent parent s s') :
    Completes parentClass parent s s' := by
  intro r₀ r hr
  cases h with
  | absent hs =>
      refine ⟨r, run_parentClass.mpr ?_, hr⟩
      rw [if_neg (by simp [hr.next (·.isKeyword .kwFrom), hs])]
      exact ⟨rfl, rfl⟩
  | named hf ht =>
      obtain ⟨r', hrun, hr'⟩ := completes_name ht (hr.advanced (Token.isEnd_of_keyword hf))
      refine ⟨r', run_parentClass.mpr ?_, hr'⟩
      rw [if_pos (by rw [hr.current, hf])]
      exact .inl ⟨_, hrun, rfl⟩

theorem completes_classDef {n k : Token} {parent : Option Name} {ms : List Member} {l' : Nat}
    {v : List Token} (hc : c.inRoutine = false) (ht : t.isKeyword .kwClass = true)
    (hn : n.kind = .identifier) (hparent : Parent parent ⟨n.endLine, u⟩ s)
    (hms : Warns ws (members e (c.enter classClosers)) ms s ⟨l', k :: v⟩)
    (hk : k.isKeyword .kwEndClass = true) :
    Warns ws (statement e c) [.classDef ⟨t, ⟨n⟩, parent, ms.filterMap Member.attribute?,
      ms.filterMap Member.method?, some k⟩] ⟨l, t :: n :: u⟩ ⟨k.endLine, v⟩ := by
  refine .wholeStatement fun r₀ r hr => ?_
  have hcurrent := hr.current
  obtain ⟨r₁, hname, h₁⟩ := completes_nameOrMissing hn (hr.advanced (Token.isEnd_of_keyword ht))
  obtain ⟨r₂, hfrom, h₂⟩ := completes_parentClass hparent h₁
  obtain ⟨r₃, hmembers, h₃⟩ := hms h₂
  obtain ⟨r', hclose, hr'⟩ := completes_closing t hk h₃
  have hfunction : opensFunction r = false := by
    simp_all [opensFunction, Token.isKeyword]
  refine ⟨r', run_general.mpr ?_, hr'⟩
  rw [if_neg (by simp [hc]), if_neg (by simp [hfunction]), if_pos (by rw [hcurrent, ht])]
  refine ⟨_, run_classDefinition.mpr ⟨⟨n⟩, r₁, parent, r₂, ms, r₃, hname, hfrom, hmembers, ?_⟩, rfl⟩
  rw [hcurrent]
  exact ⟨some k, hclose, rfl⟩

/-! ### Members of a class -/

theorem completes_noMembers (he : e.Lawful) (hs : s.moreMembers c = false) :
    Warns [] (members e c) [] s s :=
  .repeated_stop (past_memberRound he) fun _ _ hr => hr.moreMembers.trans hs

theorem completes_members (he : e.Lawful) {ms ms' : List Member} (hs : s.moreMembers c = true)
    (hm : Warns ws (member e c) (ms, true) s s') (hms : Warns vs (members e c) ms' s' s'') :
    Warns (ws ++ vs) (members e c) (ms ++ ms') s s'' :=
  .repeated_round (past_memberRound he) (fun _ _ hr => hr.moreMembers.trans hs) hm.recovering hms

theorem completes_attributes {ns : List Name} (ht : t.isKeyword .kwData = true)
    (hns : Names ns ⟨t.endLine, u⟩ s') (hstops : s'.stops c = true) :
    Completes (member e c) (ns.map fun n => .data ⟨t, n⟩, true) ⟨l, t :: u⟩ s' := by
  intro r₀ r hr
  have hcurrent := hr.current
  obtain ⟨r₁, hrun, h₁⟩ := completes_names hns (hr.advanced (Token.isEnd_of_keyword ht))
  obtain ⟨r', hends, hr'⟩ := completes_endOfStatement hstops h₁
  refine ⟨r', run_member.mpr ?_, hr'⟩
  rw [if_pos (by rw [hcurrent, ht])]
  exact run_attributes.mpr ⟨ns, true, r₁, hrun, true, hends, by rw [hcurrent]⟩

theorem completes_method {x : Routine} (ht : t.isKeyword .kwMethod = true)
    (hx : Warns ws (routine e c "a method name" t methodClosers .kwEndMethod) x ⟨t.endLine, u⟩ s') :
    Warns ws (member e c) ([.method x], true) ⟨l, t :: u⟩ s' := by
  intro r₀ r hr
  have hcurrent := hr.current
  obtain ⟨r', hrun, hr'⟩ := hx (hr.advanced (Token.isEnd_of_keyword ht))
  have hdata : t.isKeyword .kwData = false := by simp_all [Token.isKeyword]
  refine ⟨r', run_member.mpr ?_, hr'⟩
  rw [hcurrent, if_neg (by simp [hdata]), if_pos ht]
  exact run_method.mpr ⟨x, by rwa [hcurrent], rfl⟩

end Grammar

end Clipper
