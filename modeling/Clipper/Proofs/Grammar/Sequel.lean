import Clipper.Proofs.Grammar.Completeness.Expression

/-!
What follows a text on a line of its own. Nothing that the grammar derives up to the end of
the text can go on there, unless it is a block that only the end of the text closes. So where
the text ends in no such block it is derived the same, whatever is written below it.
-/

namespace Clipper

/-- A function without its closing word. Of all statements only it does not say where it ends. -/
def Stmt.isOpen : Stmt → Bool
  | .function _ r => r.closing.isNone
  | _ => false

/-- The end of the text. -/
def Spot.atEnd (s : Spot) : Bool := s.next Token.isEnd

/-- What comes in the place of the end of a text. A comma or a sign of assignment would go on
with a declaration above it. -/
structure Sequel where
  last : Token
  next : Token
  others : List Token
  last_isEnd : last.isEnd = true
  noComma : next.isPunctuation .comma = false
  noSign : next.isOperator .assign = false

namespace Sequel

/-- Two spots with the same tokens up to the end of the text, one of which has the sequel
there. -/
inductive Spots (S : Sequel) : Spot → Spot → Prop
  | here : l < S.next.line → Spots S ⟨l, [S.last]⟩ ⟨l, S.next :: S.others⟩
  | step : t.isEnd = false → Spots S ⟨t.endLine, u⟩ ⟨t.endLine, v⟩ →
      Spots S ⟨l, t :: u⟩ ⟨l, t :: v⟩

namespace Spots

variable {S : Sequel} {s s' : Spot} {c : Context} {l : Nat} {t : Token} {u : List Token}

theorem taken (h : S.Spots ⟨l, t :: u⟩ s') (ht : t.isEnd = false) :
    ∃ v, s' = ⟨l, t :: v⟩ ∧ S.Spots ⟨t.endLine, u⟩ ⟨t.endLine, v⟩ := by
  cases h with
  | here _ => simp [S.last_isEnd] at ht
  | step _ h => exact ⟨_, rfl, h⟩

theorem takenBoth {n : Token} (h : S.Spots ⟨l, t :: n :: u⟩ s') (ht : t.isEnd = false)
    (hn : n.isEnd = false) :
    ∃ v, s' = ⟨l, t :: n :: v⟩ ∧ S.Spots ⟨n.endLine, u⟩ ⟨n.endLine, v⟩ := by
  obtain ⟨_, rfl, hbehind⟩ := h.taken ht
  obtain ⟨v, hcons, hv⟩ := hbehind.taken hn
  obtain ⟨-, rfl⟩ := Spot.mk.inj hcons
  exact ⟨v, rfl, hv⟩

/-- Only where one text ends do the spots differ in what comes next. -/
theorem next_eq (h : S.Spots s s') (hs : s.atEnd = false) (p : Token → Bool) :
    s'.next p = s.next p := by
  cases h with
  | here _ => simp [Spot.atEnd, Spot.next, S.last_isEnd] at hs
  | step _ _ => rfl

theorem line_eq (h : S.Spots s s') : s'.line = s.line := by cases h <;> rfl

/-- What does not hold of the next token, and not of the sequel. -/
theorem next_false (h : S.Spots s s') {p : Token → Bool} (hs : s.next p = false)
    (hp : s.line < S.next.line → p S.next = false) : s'.next p = false := by
  cases h with
  | here hl => exact hp hl
  | step _ _ => exact hs

/-- A statement that ends with the text ends above the sequel. -/
theorem stops (h : S.Spots s s') (hs : s.stops c = true) : s'.stops c = true := by
  cases h with
  | here hl => simp [Spot.stops, Nat.ne_of_gt hl]
  | step _ _ => exact hs

theorem goes (h : S.Spots s s') (hs : s.stops c = false) : s'.stops c = false := by
  cases h with
  | here _ => simp [Spot.stops, S.last_isEnd] at hs
  | step _ _ => exact hs

theorem link? (h : S.Spots s s') {p : Nat} {lk : Option Grammar.Link}
    (hc : c.delimited = true → s.atEnd = false) (hs : s.link? c p = lk) : s'.link? c p = lk := by
  cases h with
  | here hl =>
      have hc : c.delimited = false := by
        cases hd : c.delimited with
        | false => rfl
        | true => simpa [Spot.atEnd, Spot.next, S.last_isEnd] using hc hd
      have hlast : S.last.kind = .endOfInput := by simpa [Token.isEnd] using S.last_isEnd
      rw [← hs]
      simp [Spot.link?, hc, Nat.ne_of_gt hl, hlast, Grammar.Link.ofKind?]
  | step _ _ => exact hs

theorem blockEnds (h : S.Spots s s') (hs : s.atEnd = false) :
    s'.blockEnds c = s.blockEnds c := by
  cases h with
  | here _ => simp [Spot.atEnd, Spot.next, S.last_isEnd] at hs
  | step _ _ => rfl

theorem goesOn (h : S.Spots s s') (hs : s.blockEnds c = false) : s'.blockEnds c = false := by
  cases h with
  | here _ => simp [Spot.blockEnds, S.last_isEnd] at hs
  | step _ _ => exact hs

end Spots

end Sequel

namespace Grammar

variable {S : Sequel} {s s' t₁ : Spot} {c : Context} {m : Nat} {lax : Bool} {q : Phrase}

/-! ### The end of the text -/

theorem atEnd_cons {l : Nat} {t : Token} {u : List Token} :
    (⟨l, t :: u⟩ : Spot).atEnd = t.isEnd := by simp [Spot.atEnd, Spot.next]

theorem LoopWord.atEnd {t : Token} (h : LoopWord t s s') : s.atEnd = false := by
  cases h with
  | «while» ht => exact atEnd_cons.trans (Token.isEnd_of_keyword ht)
  | doWhile ht _ => exact atEnd_cons.trans (Token.isEnd_of_keyword ht)

/-- Behind the end of the text nothing is read. -/
theorem Derives.stays (h : Derives lax m q s s') (hs : s.atEnd = true) : s'.atEnd = true := by
  induction h with
  | stop | noStep | noBranches | noAlternative | noStatements | noMembers => exact hs
  | expression _ _ ih ih' | guarded _ _ ih ih' | statements _ _ _ ih ih' | members _ _ ih ih' =>
      exact ih' (ih hs)
  | lastExpression _ _ ih | lastDeclarator _ _ ih | block _ ih => exact ih hs
  | moreExpressions _ ht _ ih | moreDeclarators _ ht _ ih | arguments _ _ ht ih =>
      have := ih hs
      rw [atEnd_cons, Token.isEnd_of_punctuation ht] at this
      cases this
  | name ht | integer ht | float ht | string ht | date ht | boolean ht | nil ht | unary ht
  | declared ht | initialized ht | routine ht =>
      rw [atEnd_cons] at hs
      simp_all [Token.isEnd]
  | group ht | array ht | ownMember ht | subscript ht | closeIndex ht | noArguments ht =>
      rw [atEnd_cons, Token.isEnd_of_punctuation ht] at hs
      cases hs
  | branch ht | forLoop ht | step ht | branches ht | alternative ht | returnNothing ht
  | returnValue ht | attributes ht | method ht =>
      rw [atEnd_cons, Token.isEnd_of_keyword ht] at hs
      cases hs
  | function _ ht | staticFunction _ ht | classDef _ ht =>
      rw [atEnd_cons, Token.isEnd_of_keyword ht] at hs
      cases hs
  | binary hlink | assign hlink | call hlink | index hlink | member hlink =>
      rw [atEnd_cons, isEnd_of_link hlink] at hs
      cases hs
  | variableList ht =>
      rw [atEnd_cons, Token.isEnd_of_storage ht] at hs
      cases hs
  | whileLoop hword =>
      rw [hword.atEnd] at hs
      cases hs
  | value h _ ih => exact ih hs

/-- What is read in front of a place inside the text begins inside. -/
theorem Derives.inside (h : Derives lax m q s s') (hs : s'.atEnd = false) : s.atEnd = false := by
  rw [Bool.eq_false_iff] at hs ⊢
  exact fun h' => hs (h.stays h')

/-- An open list of subscripts is gone on with or closed. -/
theorem Derives.subscripted {c : Context} {p : Nat} {t : Token} {x y : Expr}
    (h : Derives lax m (.links c p (some t) x y) s s') : s.atEnd = false := by
  cases h with
  | subscript ht _ _ => exact atEnd_cons.trans (Token.isEnd_of_punctuation ht)
  | closeIndex ht _ => exact atEnd_cons.trans (Token.isEnd_of_punctuation ht)

/-- Where a routine may end with the text it has its closing word. -/
theorem Closing.inside {k : Keyword} {t : Option Token} (h : Closing k t s s')
    (ht : s'.atEnd = true → t.isSome = true) : s.atEnd = false := by
  cases h with
  | absent _ => exact Bool.eq_false_iff.mpr fun hend => by simpa using ht hend
  | word hword => exact atEnd_cons.trans (Token.isEnd_of_keyword hword)

/-- No statement begins with what only goes on with another one. -/
theorem Derives.starts {ss : List Stmt} {l : Nat} {t : Token} {u : List Token}
    (h : Derives lax m (.statements c ss) ⟨l, t :: u⟩ s') :
    t.isPunctuation .comma = false ∧ t.isPunctuation .closeParen = false ∧
      t.isOperator .assign = false := by
  have hkeyword : ∀ {k}, t.isKeyword k = true → t.isPunctuation .comma = false ∧
      t.isPunctuation .closeParen = false ∧ t.isOperator .assign = false := fun hk => by
    simp_all [Token.isKeyword, Token.isPunctuation, Token.isOperator]
  cases h with
  | noStatements hends =>
      cases hk : t.kind <;>
        simp_all [Spot.blockEnds, Token.isEnd, Token.isAny, Token.isPunctuation,
          Token.isOperator, TokenKind.keyword?]
  | statements _ h _ =>
      cases h with
      | variableList ht _ _ =>
          cases hk : t.kind <;>
            simp_all [isStorage, Token.isPunctuation, Token.isOperator]
      | returnNothing ht _ | returnValue ht _ _ _ | function _ ht _ | staticFunction _ ht _ _
      | classDef _ ht _ _ _ _ => exact hkeyword ht
      | value h _ =>
          obtain ⟨st, hst⟩ := h.begins
          have hst := Starter.begins_iff.mpr hst
          refine ⟨?_, ?_, ?_⟩ <;> rw [Bool.eq_false_iff] <;> intro ht <;>
            simp_all [Token.isPunctuation, Token.isOperator, Starter.ofKind?]

/-! ### Parts without expressions -/

section Parts

variable {w : Spot} (hw : S.Spots s w)

include hw

theorem Names.followed {ns : List Name} (h : Names ns s s') :
    ∃ w', S.Spots s' w' ∧ Names ns w w' := by
  induction h generalizing w with
  | last hn hcomma =>
      obtain ⟨v, rfl, hv⟩ := hw.taken (Token.isEnd_of_kind hn rfl)
      exact ⟨_, hv, .last hn (hv.next_false hcomma fun _ => S.noComma)⟩
  | more hn hcomma _ ih =>
      obtain ⟨v, rfl, hv⟩ :=
        hw.takenBoth (Token.isEnd_of_kind hn rfl) (Token.isEnd_of_punctuation hcomma)
      obtain ⟨w', hw', hns⟩ := ih hv
      exact ⟨w', hw', .more hn hcomma hns⟩

/-- Parameters begin on the line of their routine. -/
theorem Parameters.followed {ns : List Name} (h : Parameters ns s s') :
    ∃ w', S.Spots s' w' ∧ Parameters ns w w' := by
  cases h with
  | absent hs =>
      refine ⟨w, hw, .absent ?_⟩
      rw [hw.line_eq]
      exact hw.next_false hs fun hl => by simp [Nat.ne_of_gt hl]
  | empty ho hline hclose =>
      obtain ⟨v, rfl, hv⟩ :=
        hw.takenBoth (Token.isEnd_of_punctuation ho) (Token.isEnd_of_punctuation hclose)
      exact ⟨_, hv, .empty ho hline hclose⟩
  | names ho hline hns hclose =>
      obtain ⟨v, rfl, hv⟩ := hw.taken (Token.isEnd_of_punctuation ho)
      obtain ⟨w', hw', hns⟩ := hns.followed hv
      obtain ⟨v, rfl, hv⟩ := hw'.taken (Token.isEnd_of_punctuation hclose)
      exact ⟨_, hv, .names ho hline hns hclose⟩

/-- Inside the text, or where it is written, a closing word stays what it is. -/
theorem Closing.followed {k : Keyword} {t : Option Token} (h : Closing k t s s')
    (hs : s.atEnd = false) : ∃ w', S.Spots s' w' ∧ Closing k t w w' := by
  cases h with
  | absent hnext => exact ⟨w, hw, .absent ((hw.next_eq hs _).trans hnext)⟩
  | word ht =>
      obtain ⟨v, rfl, hv⟩ := hw.taken (Token.isEnd_of_keyword ht)
      exact ⟨_, hv, .word ht⟩

theorem Parent.followed {parent : Option Name} (h : Parent parent s s') (hs : s'.atEnd = false) :
    ∃ w', S.Spots s' w' ∧ Parent parent w w' := by
  cases h with
  | absent hnext => exact ⟨w, hw, .absent ((hw.next_eq hs _).trans hnext)⟩
  | named hf ht =>
      obtain ⟨v, rfl, hv⟩ :=
        hw.takenBoth (Token.isEnd_of_keyword hf) (Token.isEnd_of_kind ht rfl)
      exact ⟨_, hv, .named hf ht⟩

theorem LoopWord.followed {t : Token} (h : LoopWord t s s') :
    ∃ w', S.Spots s' w' ∧ LoopWord t w w' := by
  cases h with
  | «while» ht =>
      obtain ⟨v, rfl, hv⟩ := hw.taken (Token.isEnd_of_keyword ht)
      exact ⟨_, hv, .while ht⟩
  | doWhile ht hword =>
      obtain ⟨v, rfl, hv⟩ :=
        hw.takenBoth (Token.isEnd_of_keyword ht) (Token.isEnd_of_keyword hword)
      exact ⟨_, hv, .doWhile ht hword⟩

theorem CounterAgain.followed {n : Token} (h : CounterAgain lax n s s') :
    ∃ w', S.Spots s' w' ∧ CounterAgain lax n w w' := by
  cases h with
  | absent hs =>
      refine ⟨w, hw, .absent ?_⟩
      rw [hw.line_eq]
      exact hw.next_false hs fun hl => by simp [Nat.ne_of_gt hl]
  | named ht hline hsame =>
      obtain ⟨v, rfl, hv⟩ := hw.taken (Token.isEnd_of_kind ht rfl)
      exact ⟨_, hv, .named ht hline hsame⟩

end Parts

/-! ### Phrases -/

/-- The text may end behind the phrase, and something else may begin there on a line of its own. -/
def Phrase.MayEnd : Phrase → Prop
  | .expression c _ _ | .operand c _ | .links c _ _ _ _ | .expressions c _ | .declarator c _
  | .declarators c _ => c.delimited = false
  | .arguments _ _ _ => True
  | .statement c ss => c.delimited = false ∧ ∀ s ∈ ss.getLast?, s.isOpen = false
  | .routine _ _ _ x => x.closing.isSome = true
  | _ => False

/-- What is derived up to the end of a text, or before, is derived with a sequel there as well. -/
theorem Derives.followed (h : Derives lax m q s s') :
    ∀ ⦃w⦄, S.Spots s w → (s'.atEnd = true → q.MayEnd) →
      ∃ w', S.Spots s' w' ∧ Derives lax m q w w' := by
  -- A phrase with a word or a bracket behind it ends inside the text.
  have hclosed : ∀ {l t u} {q : Phrase}, t.isEnd = false →
      (⟨l, t :: u⟩ : Spot).atEnd = true → q.MayEnd := fun ht hend => by
    rw [atEnd_cons, ht] at hend
    cases hend
  have hdelimited : ∀ {c : Context} {s : Spot}, (s.atEnd = true → c.delimited = false) →
      c.delimited = true → s.atEnd = false := fun h hc => by
    rw [Bool.eq_false_iff]
    intro hend
    rw [h hend] at hc
    cases hc
  induction h with
  | expression _ hlinks ih ih' =>
      intro w hw hq
      obtain ⟨w₁, hw₁, hx⟩ := ih hw fun hend => hq (hlinks.stays hend)
      obtain ⟨w₂, hw₂, hlinks⟩ := ih' hw₁ hq
      exact ⟨w₂, hw₂, .expression hx hlinks⟩
  -- Operands
  | name ht =>
      intro w hw _
      have hopen := ht.elim (Token.isEnd_of_kind · rfl) (Token.isEnd_of_kind · rfl)
      obtain ⟨v, rfl, hv⟩ := hw.taken hopen
      exact ⟨_, hv, .name ht⟩
  | integer ht hbound =>
      intro w hw _
      obtain ⟨v, rfl, hv⟩ := hw.taken (Token.isEnd_of_kind ht rfl)
      exact ⟨_, hv, .integer ht hbound⟩
  | float ht hbits =>
      intro w hw _
      obtain ⟨v, rfl, hv⟩ := hw.taken (Token.isEnd_of_kind ht rfl)
      exact ⟨_, hv, .float ht hbits⟩
  | string ht =>
      intro w hw _
      obtain ⟨v, rfl, hv⟩ := hw.taken (Token.isEnd_of_kind ht rfl)
      exact ⟨_, hv, .string ht⟩
  | date ht =>
      intro w hw _
      obtain ⟨v, rfl, hv⟩ := hw.taken (Token.isEnd_of_kind ht rfl)
      exact ⟨_, hv, .date ht⟩
  | boolean ht =>
      intro w hw _
      obtain ⟨v, rfl, hv⟩ := hw.taken (Token.isEnd_of_kind ht rfl)
      exact ⟨_, hv, .boolean ht⟩
  | nil ht =>
      intro w hw _
      obtain ⟨v, rfl, hv⟩ := hw.taken (Token.isEnd_of_kind ht rfl)
      exact ⟨_, hv, .nil ht⟩
  | unary ht _ ih =>
      intro w hw hq
      obtain ⟨v, rfl, hv⟩ := hw.taken (Token.isEnd_of_kind ht rfl)
      obtain ⟨w₁, hw₁, hx⟩ := ih hv hq
      exact ⟨w₁, hw₁, .unary ht hx⟩
  | group ht _ hclose ih =>
      intro w hw _
      obtain ⟨v, rfl, hv⟩ := hw.taken (Token.isEnd_of_punctuation ht)
      obtain ⟨w₁, hw₁, hx⟩ := ih hv (hclosed (Token.isEnd_of_punctuation hclose))
      obtain ⟨v, rfl, hv⟩ := hw₁.taken (Token.isEnd_of_punctuation hclose)
      exact ⟨_, hv, .group ht hx hclose⟩
  | array ht _ ih =>
      intro w hw _
      obtain ⟨v, rfl, hv⟩ := hw.taken (Token.isEnd_of_punctuation ht)
      obtain ⟨w₁, hw₁, hxs⟩ := ih hv fun _ => trivial
      exact ⟨w₁, hw₁, .array ht hxs⟩
  | ownMember ht hn =>
      intro w hw _
      obtain ⟨v, rfl, hv⟩ :=
        hw.takenBoth (Token.isEnd_of_punctuation ht) (Token.isEnd_of_kind hn rfl)
      exact ⟨_, hv, .ownMember ht hn⟩
  | branch ht _ hgs hother hk ih ih' ih'' =>
      intro w hw _
      have hopen := Token.isEnd_of_keyword hk
      obtain ⟨v, rfl, hv⟩ := hw.taken (Token.isEnd_of_keyword ht)
      obtain ⟨w₁, hw₁, hg⟩ := ih hv fun hend => hclosed hopen (hother.stays (hgs.stays hend))
      obtain ⟨w₂, hw₂, hgs⟩ := ih' hw₁ fun hend => hclosed hopen (hother.stays hend)
      obtain ⟨w₃, hw₃, hother⟩ := ih'' hw₂ (hclosed hopen)
      obtain ⟨v, rfl, hv⟩ := hw₃.taken hopen
      exact ⟨_, hv, .branch ht hg hgs hother hk⟩
  | whileLoop hword _ hk ih =>
      intro w hw _
      obtain ⟨w₁, hw₁, hword⟩ := hword.followed hw
      obtain ⟨w₂, hw₂, hg⟩ := ih hw₁ (hclosed (Token.isEnd_of_keyword hk))
      obtain ⟨v, rfl, hv⟩ := hw₂.taken (Token.isEnd_of_keyword hk)
      exact ⟨_, hv, .whileLoop hword hg hk⟩
  | forLoop ht hn hsign _ hmark _ hstep hbl hk hcounter iha ihb ihstep ihbl =>
      intro w hw _
      have hopen := Token.isEnd_of_keyword hk
      have hsigned := ((Bool.or_eq_true _ _).mp hsign).elim Token.isEnd_of_operator
        Token.isEnd_of_operator
      obtain ⟨_, rfl, hhead⟩ :=
        hw.takenBoth (Token.isEnd_of_keyword ht) (Token.isEnd_of_kind hn rfl)
      obtain ⟨v, hcons, hv⟩ := hhead.taken hsigned
      obtain ⟨-, rfl⟩ := Spot.mk.inj hcons
      obtain ⟨w₁, hw₁, ha⟩ := iha hv (hclosed (Token.isEnd_of_keyword hmark))
      obtain ⟨v, rfl, hv⟩ := hw₁.taken (Token.isEnd_of_keyword hmark)
      obtain ⟨w₂, hw₂, hb⟩ := ihb hv fun hend => hclosed hopen (hbl.stays (hstep.stays hend))
      obtain ⟨w₃, hw₃, hstep⟩ := ihstep hw₂ fun hend => hclosed hopen (hbl.stays hend)
      obtain ⟨w₄, hw₄, hbl⟩ := ihbl hw₃ (hclosed hopen)
      obtain ⟨v, rfl, hv⟩ := hw₄.taken hopen
      obtain ⟨w₅, hw₅, hcounter⟩ := hcounter.followed hv
      exact ⟨w₅, hw₅, .forLoop ht hn hsign ha hmark hb hstep hbl hk hcounter⟩
  -- Links
  | stop hs =>
      intro w hw hq
      exact ⟨w, hw, .stop (hw.link? (hdelimited hq) hs)⟩
  | binary hlink _ hlinks ih ih' =>
      intro w hw hq
      obtain ⟨v, rfl, hv⟩ := hw.taken (isEnd_of_link hlink)
      obtain ⟨w₁, hw₁, hy⟩ := ih hv fun hend => hq (hlinks.stays hend)
      obtain ⟨w₂, hw₂, hlinks⟩ := ih' hw₁ hq
      exact ⟨w₂, hw₂, .binary hlink hy hlinks⟩
  | assign hlink hleft _ hlinks ih ih' =>
      intro w hw hq
      obtain ⟨v, rfl, hv⟩ := hw.taken (isEnd_of_link hlink)
      obtain ⟨w₁, hw₁, hy⟩ := ih hv fun hend => hq (hlinks.stays hend)
      obtain ⟨w₂, hw₂, hlinks⟩ := ih' hw₁ hq
      exact ⟨w₂, hw₂, .assign hlink hleft hy hlinks⟩
  | call hlink _ _ ih ih' =>
      intro w hw hq
      obtain ⟨v, rfl, hv⟩ := hw.taken (isEnd_of_link hlink)
      obtain ⟨w₁, hw₁, hxs⟩ := ih hv fun _ => trivial
      obtain ⟨w₂, hw₂, hlinks⟩ := ih' hw₁ hq
      exact ⟨w₂, hw₂, .call hlink hxs hlinks⟩
  | index hlink _ hlinks ih ih' =>
      intro w hw hq
      obtain ⟨v, rfl, hv⟩ := hw.taken (isEnd_of_link hlink)
      obtain ⟨w₁, hw₁, hi⟩ := ih hv fun hend => by simp [hlinks.subscripted] at hend
      obtain ⟨w₂, hw₂, hlinks⟩ := ih' hw₁ hq
      exact ⟨w₂, hw₂, .index hlink hi hlinks⟩
  | subscript ht _ hlinks ih ih' =>
      intro w hw hq
      obtain ⟨v, rfl, hv⟩ := hw.taken (Token.isEnd_of_punctuation ht)
      obtain ⟨w₁, hw₁, hi⟩ := ih hv fun hend => by simp [hlinks.subscripted] at hend
      obtain ⟨w₂, hw₂, hlinks⟩ := ih' hw₁ hq
      exact ⟨w₂, hw₂, .subscript ht hi hlinks⟩
  | closeIndex ht _ ih =>
      intro w hw hq
      obtain ⟨v, rfl, hv⟩ := hw.taken (Token.isEnd_of_punctuation ht)
      obtain ⟨w₁, hw₁, hlinks⟩ := ih hv hq
      exact ⟨w₁, hw₁, .closeIndex ht hlinks⟩
  | member hlink hn _ ih =>
      intro w hw hq
      obtain ⟨v, rfl, hv⟩ := hw.takenBoth (isEnd_of_link hlink) (Token.isEnd_of_kind hn rfl)
      obtain ⟨w₁, hw₁, hlinks⟩ := ih hv hq
      exact ⟨w₁, hw₁, .member hlink hn hlinks⟩
  -- Lists of expressions
  | lastExpression _ hs ih =>
      intro w hw hq
      obtain ⟨w₁, hw₁, hx⟩ := ih hw hq
      exact ⟨w₁, hw₁, .lastExpression hx (hw₁.next_false hs fun _ => S.noComma)⟩
  | moreExpressions _ ht hxs ih ih' =>
      intro w hw hq
      obtain ⟨w₁, hw₁, hx⟩ := ih hw (hclosed (Token.isEnd_of_punctuation ht))
      obtain ⟨v, rfl, hv⟩ := hw₁.taken (Token.isEnd_of_punctuation ht)
      obtain ⟨w₂, hw₂, hxs⟩ := ih' hv hq
      exact ⟨w₂, hw₂, .moreExpressions hx ht hxs⟩
  | noArguments ht =>
      intro w hw _
      obtain ⟨v, rfl, hv⟩ := hw.taken (Token.isEnd_of_punctuation ht)
      exact ⟨_, hv, .noArguments ht⟩
  | arguments hs hxs ht ih =>
      intro w hw _
      have hopen := Token.isEnd_of_punctuation ht
      obtain ⟨w₁, hw₁, hxs'⟩ := ih hw (hclosed hopen)
      obtain ⟨v, rfl, hv⟩ := hw₁.taken hopen
      have hinside := hxs.inside (atEnd_cons.trans hopen)
      exact ⟨_, hv, .arguments ((hw.next_eq hinside _).trans hs) hxs' ht⟩
  -- Parts of conditionals and loops
  | noStep hs =>
      intro w hw hq
      exact ⟨w, hw, .noStep ((hw.next_eq (Bool.eq_false_iff.mpr hq) _).trans hs)⟩
  | step ht _ ih =>
      intro w hw hq
      obtain ⟨v, rfl, hv⟩ := hw.taken (Token.isEnd_of_keyword ht)
      obtain ⟨w₁, hw₁, hx⟩ := ih hv fun hend => (hq hend).elim
      exact ⟨w₁, hw₁, .step ht hx⟩
  | guarded _ hb ih ih' =>
      intro w hw hq
      obtain ⟨w₁, hw₁, hx⟩ := ih hw fun hend => (hq (hb.stays hend)).elim
      obtain ⟨w₂, hw₂, hb⟩ := ih' hw₁ hq
      exact ⟨w₂, hw₂, .guarded hx hb⟩
  | noBranches hs =>
      intro w hw hq
      exact ⟨w, hw, .noBranches ((hw.next_eq (Bool.eq_false_iff.mpr hq) _).trans hs)⟩
  | branches ht _ hgs ih ih' =>
      intro w hw hq
      obtain ⟨v, rfl, hv⟩ := hw.taken (Token.isEnd_of_keyword ht)
      obtain ⟨w₁, hw₁, hg⟩ := ih hv fun hend => hq (hgs.stays hend)
      obtain ⟨w₂, hw₂, hgs⟩ := ih' hw₁ hq
      exact ⟨w₂, hw₂, .branches ht hg hgs⟩
  | noAlternative hs =>
      intro w hw hq
      exact ⟨w, hw, .noAlternative ((hw.next_eq (Bool.eq_false_iff.mpr hq) _).trans hs)⟩
  | alternative ht _ ih =>
      intro w hw hq
      obtain ⟨v, rfl, hv⟩ := hw.taken (Token.isEnd_of_keyword ht)
      obtain ⟨w₁, hw₁, hb⟩ := ih hv hq
      exact ⟨w₁, hw₁, .alternative ht hb⟩
  -- Statements
  | block hss ih =>
      intro w hw hq
      have hinside := hss.inside (Bool.eq_false_iff.mpr hq)
      obtain ⟨w₁, hw₁, hss⟩ := ih hw hq
      obtain ⟨v, rfl, -⟩ := hw.taken (atEnd_cons.symm.trans hinside)
      exact ⟨w₁, hw₁, .block hss⟩
  | noStatements hs =>
      intro w hw hq
      exact ⟨w, hw, .noStatements ((hw.blockEnds (Bool.eq_false_iff.mpr hq)).trans hs)⟩
  | statements hs _ hss ih ih' =>
      intro w hw hq
      obtain ⟨w₁, hw₁, hx⟩ := ih hw fun hend => (hq (hss.stays hend)).elim
      obtain ⟨w₂, hw₂, hss⟩ := ih' hw₁ hq
      exact ⟨w₂, hw₂, .statements (hw.goesOn hs) hx hss⟩
  | variableList ht _ hs ih =>
      intro w hw hq
      obtain ⟨v, rfl, hv⟩ := hw.taken (Token.isEnd_of_storage ht)
      obtain ⟨w₁, hw₁, hds⟩ := ih hv fun hend => (hq hend).1
      exact ⟨w₁, hw₁, .variableList ht hds (hw₁.stops hs)⟩
  | returnNothing ht hs =>
      intro w hw hq
      obtain ⟨v, rfl, hv⟩ := hw.taken (Token.isEnd_of_keyword ht)
      exact ⟨_, hv, .returnNothing ht (hv.stops hs)⟩
  | returnValue ht hs _ hs' ih =>
      intro w hw hq
      obtain ⟨v, rfl, hv⟩ := hw.taken (Token.isEnd_of_keyword ht)
      obtain ⟨w₁, hw₁, hx⟩ := ih hv fun hend => (hq hend).1
      exact ⟨w₁, hw₁, .returnValue ht (hv.goes hs) hx (hw₁.stops hs')⟩
  | value h hs ih =>
      intro w hw hq
      obtain ⟨st, hst⟩ := h.begins
      obtain ⟨v, rfl, -⟩ := hw.taken hst.isEnd
      obtain ⟨w₁, hw₁, hx⟩ := ih hw fun hend => (hq hend).1
      exact ⟨w₁, hw₁, .value hx (hw₁.stops hs)⟩
  | function hc ht _ ih =>
      intro w hw hq
      obtain ⟨v, rfl, hv⟩ := hw.taken (Token.isEnd_of_keyword ht)
      obtain ⟨w₁, hw₁, hx⟩ := ih hv fun hend => by
        simpa [Phrase.MayEnd, Stmt.isOpen, Option.isSome_iff_ne_none] using (hq hend).2
      exact ⟨w₁, hw₁, .function hc ht hx⟩
  | staticFunction hc ht hf _ ih =>
      intro w hw hq
      obtain ⟨v, rfl, hv⟩ := hw.takenBoth (Token.isEnd_of_keyword ht) (Token.isEnd_of_keyword hf)
      obtain ⟨w₁, hw₁, hx⟩ := ih hv fun hend => by
        simpa [Phrase.MayEnd, Stmt.isOpen, Option.isSome_iff_ne_none] using (hq hend).2
      exact ⟨w₁, hw₁, .staticFunction hc ht hf hx⟩
  | classDef hc ht hn hparent hms hk ih =>
      intro w hw _
      have hopen := Token.isEnd_of_keyword hk
      obtain ⟨v, rfl, hv⟩ := hw.takenBoth (Token.isEnd_of_keyword ht) (Token.isEnd_of_kind hn rfl)
      obtain ⟨w₁, hw₁, hparent⟩ := hparent.followed hv (hms.inside (atEnd_cons.trans hopen))
      obtain ⟨w₂, hw₂, hms⟩ := ih hw₁ (hclosed hopen)
      obtain ⟨v, rfl, hv⟩ := hw₂.taken hopen
      exact ⟨_, hv, .classDef hc ht hn hparent hms hk⟩
  -- Parts of declarations
  | declared hn hs =>
      intro w hw _
      obtain ⟨v, rfl, hv⟩ := hw.taken (Token.isEnd_of_kind hn rfl)
      exact ⟨_, hv, .declared hn (hv.next_false hs fun _ => S.noSign)⟩
  | initialized hn hsign _ ih =>
      intro w hw hq
      obtain ⟨v, rfl, hv⟩ :=
        hw.takenBoth (Token.isEnd_of_kind hn rfl) (Token.isEnd_of_operator hsign)
      obtain ⟨w₁, hw₁, hx⟩ := ih hv hq
      exact ⟨w₁, hw₁, .initialized hn hsign hx⟩
  | lastDeclarator _ hs ih =>
      intro w hw hq
      obtain ⟨w₁, hw₁, hd⟩ := ih hw hq
      exact ⟨w₁, hw₁, .lastDeclarator hd (hw₁.next_false hs fun _ => S.noComma)⟩
  | moreDeclarators _ ht _ ih ih' =>
      intro w hw hq
      obtain ⟨w₁, hw₁, hd⟩ := ih hw (hclosed (Token.isEnd_of_punctuation ht))
      obtain ⟨v, rfl, hv⟩ := hw₁.taken (Token.isEnd_of_punctuation ht)
      obtain ⟨w₂, hw₂, hds⟩ := ih' hv hq
      exact ⟨w₂, hw₂, .moreDeclarators hd ht hds⟩
  | routine hn hps hb hc ih =>
      intro w hw hq
      -- Without its closing word the routine ends inside the text.
      have hinside := hc.inside hq
      obtain ⟨v, rfl, hv⟩ := hw.taken (Token.isEnd_of_kind hn rfl)
      obtain ⟨w₁, hw₁, hps⟩ := hps.followed hv
      obtain ⟨w₂, hw₂, hb⟩ := ih hw₁ fun hend => by simp [hinside] at hend
      obtain ⟨w₃, hw₃, hc⟩ := hc.followed hw₂ hinside
      exact ⟨w₃, hw₃, .routine hn hps hb hc⟩
  | noMembers hs =>
      intro w hw hq
      exact ⟨w, hw, .noMembers ((hw.next_eq (Bool.eq_false_iff.mpr hq) _).trans hs)⟩
  | members _ hms ih ih' =>
      intro w hw hq
      obtain ⟨w₁, hw₁, hm⟩ := ih hw fun hend => (hq (hms.stays hend)).elim
      obtain ⟨w₂, hw₂, hms⟩ := ih' hw₁ hq
      exact ⟨w₂, hw₂, .members hm hms⟩
  | attributes ht hns hs =>
      intro w hw _
      obtain ⟨v, rfl, hv⟩ := hw.taken (Token.isEnd_of_keyword ht)
      obtain ⟨w₁, hw₁, hns⟩ := hns.followed hv
      exact ⟨w₁, hw₁, .attributes ht hns (hw₁.stops hs)⟩
  | method ht _ ih =>
      intro w hw hq
      obtain ⟨v, rfl, hv⟩ := hw.taken (Token.isEnd_of_keyword ht)
      obtain ⟨w₁, hw₁, hx⟩ := ih hv fun hend => (hq hend).elim
      exact ⟨w₁, hw₁, .method ht hx⟩

end Grammar

end Clipper
