import Clipper.Proofs.Breaks.Abreast

/-!
Every phrase of the grammar is read in a text with other line breaks as it is read in the first.
The induction carries along what is open around the phrase. Statements and declarations stand
outside of all delimiters, so that their ends are kept; links ask for a line break only there.
-/

namespace Clipper

namespace Correspondence

variable {t u : Token}

theorem isKeyword_of_verbatim {k : Keyword} (h : verbatim.token t u)
    (ht : t.isKeyword k = true) : u.isKeyword k = true := by
  rwa [Token.isKeyword, ← h.1.1]

theorem isPunctuation_of_verbatim {p : Punctuation} (h : verbatim.token t u)
    (ht : t.isPunctuation p = true) : u.isPunctuation p = true := by
  rwa [Token.isPunctuation, ← h.1.1]

theorem isOperator_of_verbatim {o : Operator} (h : verbatim.token t u)
    (ht : t.isOperator o = true) : u.isOperator o = true := by
  rwa [Token.isOperator, ← h.1.1]

end Correspondence

namespace Context.Fits

variable {c : Context} {fs : List Frame}

theorem enter (h : c.Fits fs) (hc : c.delimited = false) (closers : List Keyword) :
    (c.enter closers).Fits fs := by
  match fs, h with
  | .bracket :: _, h => simp [Context.Fits, hc] at h
  | .body _ :: _, h =>
      exact fun k hk => ⟨(h k hk).1, List.mem_append_right _ (h k hk).2⟩
  | [], _ => trivial

theorem bracket : c.delimit.Fits (.bracket :: fs) := rfl

/-- In a body. -/
theorem body {closers : List Keyword} (h : ∀ k ∈ closers, k ∈ bodyWords) :
    (c.enter closers).Fits (.body closers :: fs) :=
  fun k hk => ⟨h k hk, List.mem_append_left _ hk⟩

end Context.Fits

namespace Grammar

open Correspondence

variable {lax : Bool} {m : Nat} {q : Phrase} {s s' w : Spot} {c : Context} {fs : List Frame}
  {bs rest : List BlockBody} {next kept : Bool} {t : Token}

/-! ### Parts without expressions -/

section Parts

variable (hw : (Enclosure.mk fs bs next).Abreast kept s w) (hfits : c.Fits fs)
  (hbs : Ahead bs s'.rest)

include hw hfits hbs

theorem Names.rebroken {ns : List Name} (h : Names ns s s') :
    ∃ ns' w' next', List.Forall₂ verbatim.Names ns ns' ∧ Names ns' w w' ∧
      (Enclosure.mk fs bs next').Abreast true s' w' := by
  induction h generalizing w next kept with
  | last hn hs =>
      obtain ⟨l', u, us, rfl, htu, hv⟩ := hw.neutral hfits (Token.neutral_of_kind hn rfl) hbs
      exact ⟨_, _, _, .cons (.written htu hn) .nil,
        .last (htu.1.1 ▸ hn) ((hv.next_eq (· == .punctuation .comma)).trans hs), hv⟩
  | more hn hcomma hns ih =>
      have hbehind := (hbs.within hns.sublist).behind
      obtain ⟨_, u, v, us, rfl, htu, hcommav, hv⟩ := hw.neutrals hfits
        (Token.neutral_of_kind hn rfl) (Token.neutral_of_punctuation hcomma rfl) hbehind
      obtain ⟨ns', w', next', hnames, hd, hw'⟩ := ih hv hbs
      exact ⟨_, w', next', .cons (.written htu hn) hnames,
        .more (htu.1.1 ▸ hn) (isPunctuation_of_verbatim hcommav hcomma) hd, hw'⟩

theorem Parameters.rebroken {ns : List Name} (hc : c.delimited = false)
    (hkept : kept = true) (h : Parameters ns s s') :
    ∃ ns' w' next', List.Forall₂ verbatim.Names ns ns' ∧ Parameters ns' w w' ∧
      (Enclosure.mk fs bs next').Abreast true s' w' := by
  subst hkept
  have hline := hw.parenthesis_eq hfits hc
  cases h with
  | absent hs => exact ⟨[], w, next, .nil, .absent (hline.trans hs), hw⟩
  | empty ho hl hclose =>
      obtain ⟨l', u, us, rfl, hou, hv⟩ := hw.opening ho hbs.past rfl
      obtain ⟨l₂, v, us, hcons, hclosev, hv'⟩ := hv.closing hclose hbs rfl
      obtain ⟨-, rfl⟩ := Spot.mk.inj hcons
      have hou := isPunctuation_of_verbatim hou ho
      simp only [Spot.next, List.head?_cons, Option.any_some, ho, hou, hl, Bool.true_and,
        beq_self_eq_true, beq_iff_eq] at hline
      exact ⟨[], _, _, .nil, .empty hou hline (isPunctuation_of_verbatim hclosev hclose), hv'⟩
  | names ho hl hns hclose =>
      have hinside := (Ahead.past hbs).within hns.sublist
      obtain ⟨l', u, us, rfl, hou, hv⟩ := hw.opening ho hinside.behind rfl
      obtain ⟨ns', w', _, hnames, hd, hv'⟩ :=
        hns.rebroken hv (Context.Fits.bracket (c := c)) hbs.past
      obtain ⟨l₂, v, us, rfl, hclosev, hv'⟩ := hv'.closing hclose hbs rfl
      have hou := isPunctuation_of_verbatim hou ho
      simp only [Spot.next, List.head?_cons, Option.any_some, ho, hou, hl, Bool.true_and,
        beq_self_eq_true, beq_iff_eq] at hline
      exact ⟨ns', _, _, hnames, .names hou hline hd (isPunctuation_of_verbatim hclosev hclose),
        hv'⟩

theorem Closing.rebroken {k : Keyword} {closed : Option Token}
    (hk : (TokenKind.keyword k).isNeutral = true) (h : Closing k closed s s') :
    ∃ closed' w' next', Option.Rel verbatim.token closed closed' ∧ Closing k closed' w w' ∧
      (Enclosure.mk fs bs next').Abreast false s' w' := by
  cases h with
  | absent hs =>
      exact ⟨none, w, next, .none, .absent ((hw.next_eq (· == .keyword k)).trans hs), hw.forget⟩
  | word ht =>
      obtain ⟨l', u, us, rfl, htu, hv⟩ := hw.neutral hfits (Token.neutral_of_keyword ht hk) hbs
      exact ⟨some u, _, _, .some htu, .word (isKeyword_of_verbatim htu ht), hv.forget⟩

theorem Parent.rebroken {parent : Option Name} (h : Parent parent s s') :
    ∃ parent' w' next', Option.Rel verbatim.Names parent parent' ∧ Parent parent' w w' ∧
      (Enclosure.mk fs bs next').Abreast false s' w' := by
  cases h with
  | absent hs =>
      exact ⟨none, w, next, .none, .absent ((hw.next_eq (· == .keyword .kwFrom)).trans hs),
        hw.forget⟩
  | named hf ht =>
      obtain ⟨_, u, v, us, rfl, hfu, htv, hv⟩ :=
        hw.neutrals hfits (Token.neutral_of_keyword hf rfl) (Token.neutral_of_kind ht rfl) hbs
      exact ⟨some ⟨v⟩, _, _, .some (.written htv ht),
        .named (isKeyword_of_verbatim hfu hf) (htv.1.1 ▸ ht), hv.forget⟩

theorem LoopWord.rebroken (h : LoopWord t s s') :
    ∃ u w' next', verbatim.token t u ∧ LoopWord u w w' ∧
      (Enclosure.mk fs bs next').Abreast false s' w' := by
  cases h with
  | «while» ht =>
      obtain ⟨l', u, us, rfl, htu, hv⟩ := hw.neutral hfits (Token.neutral_of_keyword ht rfl) hbs
      exact ⟨u, _, _, htu, .while (isKeyword_of_verbatim htu ht), hv.forget⟩
  | doWhile ht hword =>
      obtain ⟨_, u, v, us, rfl, htu, hwordv, hv⟩ :=
        hw.neutrals hfits (Token.neutral_of_keyword ht rfl) (Token.neutral_of_keyword hword rfl) hbs
      exact ⟨u, _, _, htu,
        .doWhile (isKeyword_of_verbatim htu ht) (isKeyword_of_verbatim hwordv hword), hv.forget⟩

/-- The place in front of the counter is kept, whatever is open there. -/
theorem CounterAgain.rebroken {n : Token} (n' : Token) (hnext : next = true) (hkept : kept = true)
    (h : CounterAgain true n s s') :
    ∃ w' next', CounterAgain true n' w w' ∧ (Enclosure.mk fs bs next').Abreast true s' w' := by
  subst hkept
  have hline := hw.counter_eq hnext
  cases h with
  | absent hs => exact ⟨w, next, .absent (hline.trans hs), hw⟩
  | named ht hl _ =>
      obtain ⟨l', u, us, rfl, htu, hv⟩ := hw.neutral hfits (Token.neutral_of_kind ht rfl) hbs
      have hu : u.kind = .identifier := htu.1.1 ▸ ht
      simp only [Spot.next, List.head?_cons, Option.any_some, ht, hu, hl, Bool.true_and,
        beq_self_eq_true, beq_iff_eq] at hline
      exact ⟨_, _, .named hu hline rfl, hv⟩

end Parts

/-- The body of a block, from its first token on. -/
theorem Derives.intoBody {b : Block} {closers : List Keyword} (h : Derives lax m (.block c b) s s')
    (hbs : Ahead ((Phrase.block c b).bodies ++ rest) s.rest.tail)
    (hw : (Enclosure.mk fs (Bodies.block closers b ++ rest) next).Abreast kept s w) :
    (Enclosure.mk (.body closers :: fs) ((Phrase.block c b).bodies ++ rest) next).Abreast
      false s w := by
  cases h with
  | block _ => exact hw.intoBody hbs

/-! ### Phrases -/

/-- The place of a phrase between these frames. Statements and declarations are outside of
delimiters, and what closes a list or a block is what its frame says. -/
def Phrase.Stands (fs : List Frame) : Phrase → Prop
  | .expression c _ _ | .operand c _ | .links c _ _ _ _ | .expressions c _ | .step c _
  | .branches c _ => c.Fits fs
  | .arguments _ close _ => close.closes = true
  | .guarded c closers _ => c.Fits fs ∧ ∀ k ∈ closers, k ∈ bodyWords
  | .alternative _ _ => True
  | .routine c _ close _ =>
      c.Fits fs ∧ c.delimited = false ∧ (TokenKind.keyword close).isNeutral = true
  | .block c _ | .statements c _ | .statement c _ | .declarator c _ | .declarators c _
  | .members c _ | .member c _ => c.Fits fs ∧ c.delimited = false

/-- What is open in front of a phrase. -/
def Phrase.before (fs : List Frame) : Phrase → List Frame
  | .links _ _ (some _) _ _ | .arguments _ _ _ => .bracket :: fs
  | .branches _ _ | .alternative _ _ => .body branchClosers :: fs
  | _ => fs

/-- What is open behind a phrase. The last body of a conditional or a loop is open until the word
that closes it. -/
def Phrase.after (fs : List Frame) : Phrase → List Frame
  | .guarded _ closers _ => .body closers :: fs
  | .branches _ _ => .body branchClosers :: fs
  | .alternative _ b => .body (if b.isSome then [.kwEndIf] else branchClosers) :: fs
  | _ => fs

/-- The phrase asks for a line break in front of its first token. -/
def Phrase.asks : Phrase → Bool
  | .links _ _ _ _ _ => true
  | _ => false

/-- Behind the phrase it can be asked for a line break. -/
def Phrase.tells : Phrase → Bool
  | .expression _ _ _ | .operand _ _ | .links _ _ _ _ _ | .expressions _ _ | .arguments _ _ _
  | .declarator _ _ | .declarators _ _ => true
  | _ => false

/-- Between these spots the phrase is read in the other text as well, with another tree that is
alike, wherever it stands. -/
def Phrase.Reread {α : Type} (m : Nat) (q : Phrase) (s s' : Spot) (R : α → Prop)
    (f : α → Phrase) : Prop :=
  ∀ ⦃fs rest next w⦄, q.Stands fs → Ahead rest (q.beyond s') →
    (Enclosure.mk (q.before fs) (q.bodies ++ rest) next).Abreast q.asks s w →
    ∃ x w' next', R x ∧ Derives true m (f x) w w' ∧
      (Enclosure.mk (q.after fs) rest next').Abreast q.tells s' w'

/-- What is read in the other text. A phrase goes on with what was read in front of it. -/
def Phrase.Rebroken (m : Nat) (s s' : Spot) : Phrase → Prop
  | .expression c p x =>
      (Phrase.expression c p x).Reread m s s' (verbatim.Exprs c.inRoutine x) (.expression c p)
  | .operand c x => (Phrase.operand c x).Reread m s s' (verbatim.Exprs c.inRoutine x) (.operand c)
  | .links c p b left x => ∀ ⦃b' left'⦄, Option.Rel verbatim.token b b' →
      verbatim.Exprs c.inRoutine left left' →
      (Phrase.links c p b left x).Reread m s s' (verbatim.Exprs c.inRoutine x)
        (.links c p b' left')
  | .expressions c xs => (Phrase.expressions c xs).Reread m s s'
      (fun ys => Part.Alike verbatim c.inRoutine (.expressions xs) (.expressions ys))
      (.expressions c)
  | .arguments c close xs => (Phrase.arguments c close xs).Reread m s s'
      (fun ys => Part.Alike verbatim c.inRoutine (.expressions xs) (.expressions ys))
      (.arguments c close)
  | .step c x => (Phrase.step c x).Reread m s s' (verbatim.ExprsIfAny c.inRoutine x) (.step c)
  | .guarded c closers g => ∀ ⦃t'⦄, verbatim.token g.token t' →
      (Phrase.guarded c closers g).Reread m s s'
        (fun g' => g'.token = t' ∧ Part.Alike verbatim c.inRoutine (.guarded g) (.guarded g'))
        (.guarded c closers)
  | .branches c gs => (Phrase.branches c gs).Reread m s s'
      (fun gs' => Part.Alike verbatim c.inRoutine (.branches gs) (.branches gs')) (.branches c)
  | .alternative c b => (Phrase.alternative c b).Reread m s s'
      (fun b' => Part.Alike verbatim c.inRoutine (.blockIfAny b) (.blockIfAny b'))
      (.alternative c)
  | .block c b => (Phrase.block c b).Reread m s s' (verbatim.Blocks c.inRoutine b) (.block c)
  | .statements c ss => (Phrase.statements c ss).Reread m s s'
      (List.Forall₂ (verbatim.Stmts c.inRoutine) ss) (.statements c)
  | .statement c ss => (Phrase.statement c ss).Reread m s s'
      (List.Forall₂ (verbatim.Stmts c.inRoutine) ss) (.statement c)
  | .declarator c d => (Phrase.declarator c d).Reread m s s'
      (verbatim.Declarators c.inRoutine d) (.declarator c)
  | .declarators c ds => (Phrase.declarators c ds).Reread m s s'
      (List.Forall₂ (verbatim.Declarators c.inRoutine) ds) (.declarators c)
  | .routine c closers close x => ∀ ⦃t'⦄, verbatim.token x.token t' →
      (Phrase.routine c closers close x).Reread m s s'
        (fun x' => x'.token = t' ∧ verbatim.Routines true x x') (.routine c closers close)
  | .members c ms => (Phrase.members c ms).Reread m s s' (List.Forall₂ verbatim.Members ms)
      (.members c)
  | .member c ms => (Phrase.member c ms).Reread m s s' (List.Forall₂ verbatim.Members ms)
      (.member c)

/-- What is read in a text without errors is read alike in one with other line breaks. -/
theorem Derives.rebroken (h : Derives true m q s s') : q.Rebroken m s s' := by
  -- Each case takes its tokens one by one. What is still to begin is ahead of each of them, so
  -- that none of them opens a body, and what is open behind it is known from its kind.
  induction h with
  | expression _ hlinks ih ih' =>
      intro fs rest next w hq hrest hw
      rw [Phrase.bodies, hlinks.bodies_chain, List.append_assoc] at hw
      obtain ⟨left', w₁, _, hleft, hd, hw₁⟩ := ih hq (hlinks.ahead hrest) hw
      obtain ⟨x', w₂, _, hx, hd', hw₂⟩ := ih' .none hleft hq hrest hw₁
      exact ⟨x', w₂, _, hx, .expression hd hd', hw₂⟩
  -- Operands
  | name ht =>
      intro fs rest next w hq hrest hw
      have hneutral := ht.elim (Token.neutral_of_kind · rfl) (Token.neutral_of_kind · rfl)
      obtain ⟨_, u, us, rfl, htu, hv⟩ := hw.neutral hq hneutral hrest
      exact ⟨_, _, _, .name htu ht, .name (htu.1.1 ▸ ht), hv⟩
  | integer ht hbound =>
      intro fs rest next w hq hrest hw
      obtain ⟨_, u, us, rfl, htu, hv⟩ := hw.neutral hq (Token.neutral_of_kind ht rfl) hrest
      refine ⟨_, _, _, .integer htu, ?_, hv⟩
      rw [htu.1.2] at hbound ⊢
      exact .integer (htu.1.1 ▸ ht) hbound
  | float ht hbits =>
      intro fs rest next w hq hrest hw
      obtain ⟨_, u, us, rfl, htu, hv⟩ := hw.neutral hq (Token.neutral_of_kind ht rfl) hrest
      exact ⟨_, _, _, .float htu, .float (htu.1.1 ▸ ht) (htu.1.2 ▸ hbits), hv⟩
  | string ht =>
      intro fs rest next w hq hrest hw
      obtain ⟨_, u, us, rfl, htu, hv⟩ := hw.neutral hq (Token.neutral_of_kind ht rfl) hrest
      refine ⟨_, _, _, .string htu, ?_, hv⟩
      rw [htu.1.2]
      exact .string (htu.1.1 ▸ ht)
  | date ht =>
      intro fs rest next w hq hrest hw
      obtain ⟨_, u, us, rfl, htu, hv⟩ := hw.neutral hq (Token.neutral_of_kind ht rfl) hrest
      exact ⟨_, _, _, .date htu, .date (htu.1.1 ▸ ht), hv⟩
  | boolean ht =>
      intro fs rest next w hq hrest hw
      have hneutral := Token.neutral_of_kind ht (by split <;> rfl)
      obtain ⟨_, u, us, rfl, htu, hv⟩ := hw.neutral hq hneutral hrest
      exact ⟨_, _, _, .boolean htu, .boolean (htu.1.1 ▸ ht), hv⟩
  | nil ht =>
      intro fs rest next w hq hrest hw
      obtain ⟨_, u, us, rfl, htu, hv⟩ := hw.neutral hq (Token.neutral_of_kind ht rfl) hrest
      exact ⟨_, _, _, .nil htu, .nil (htu.1.1 ▸ ht), hv⟩
  | unary ht hx ih =>
      intro fs rest next w hq hrest hw
      obtain ⟨_, u, us, rfl, htu, hv⟩ :=
        hw.neutral hq (Token.neutral_of_kind ht rfl) (hx.ahead hrest).behind
      obtain ⟨x', w₁, _, hx', hd, hw₁⟩ := ih hq hrest hv.forget
      exact ⟨_, w₁, _, .unary htu hx', .unary (htu.1.1 ▸ ht) hd, hw₁⟩
  | group ht hx hclose ih =>
      intro fs rest next w hq hrest hw
      obtain ⟨_, u, us, rfl, htu, hv⟩ := hw.opening ht (hx.ahead hrest.past).behind rfl
      obtain ⟨x', w₁, _, hx', hd, hw₁⟩ := @ih (.bracket :: fs) _ _ _ rfl hrest.past hv.forget
      obtain ⟨_, k, us, rfl, hk, hv⟩ := hw₁.closing hclose hrest rfl
      exact ⟨x', _, _, hx', .group (isPunctuation_of_verbatim htu ht) hd
        (isPunctuation_of_verbatim hk hclose), hv⟩
  | array ht hxs ih =>
      intro fs rest next w hq hrest hw
      obtain ⟨_, u, us, rfl, htu, hv⟩ := hw.opening ht (hxs.ahead hrest).behind rfl
      obtain ⟨xs', w₁, _, hxs', hd, hw₁⟩ := ih rfl hrest hv.forget
      exact ⟨_, w₁, _, .array htu hxs', .array (isPunctuation_of_verbatim htu ht) hd, hw₁⟩
  | ownMember ht hn =>
      intro fs rest next w hq hrest hw
      obtain ⟨_, u, n', us, rfl, htu, hnn, hv⟩ :=
        hw.neutrals hq (Token.neutral_of_punctuation ht rfl) (Token.neutral_of_kind hn rfl) hrest
      exact ⟨_, _, _, .ownMember htu (.written hnn hn),
        .ownMember (isPunctuation_of_verbatim htu ht) (hnn.1.1 ▸ hn), hv⟩
  | branch ht hg hgs hother hk ih ih' ih'' =>
      intro fs rest next w hq hrest hw
      simp only [Phrase.bodies, Bodies.expression, List.append_assoc] at hw
      have hrest₂ := hother.ahead hrest
      have hrest₁ := hgs.ahead hrest₂
      obtain ⟨_, u, us, rfl, htu, hv⟩ :=
        hw.neutral hq (Token.neutral_of_keyword ht rfl) (hg.ahead hrest₁).behind
      obtain ⟨⟨_, x', b'⟩, w₁, _, ⟨rfl, hg'⟩, hd₁, hw₁⟩ :=
        ih htu ⟨hq, by decide⟩ hrest₁ hv.forget
      obtain ⟨gs', w₂, _, hgs', hd₂, hw₂⟩ := ih' hq hrest₂ hw₁
      obtain ⟨other', w₃, _, hother', hd₃, hw₃⟩ := ih'' trivial hrest hw₂
      -- The word closes the last body, whichever that is.
      obtain ⟨_, k', us, rfl, hkk, hv⟩ := hw₃.word hk hrest (by split <;> decide)
      exact ⟨_, _, _, .branch hg' hgs' hother' (.some hkk),
        .branch (isKeyword_of_verbatim htu ht) hd₁ hd₂ hd₃ (isKeyword_of_verbatim hkk hk), hv⟩
  | whileLoop hword hg hk ih =>
      intro fs rest next w hq hrest hw
      obtain ⟨u, w₁, _, htu, hword', hw₁⟩ := hword.rebroken hw hq (hg.ahead hrest).behind
      obtain ⟨⟨_, x', b'⟩, w₂, _, ⟨rfl, hg'⟩, hd, hw₂⟩ := ih htu ⟨hq, by decide⟩ hrest hw₁
      obtain ⟨_, k', us, rfl, hkk, hv⟩ := hw₂.word hk hrest (by decide)
      exact ⟨_, _, _, .whileLoop hg' (.some hkk),
        .whileLoop hword' hd (isKeyword_of_verbatim hkk hk), hv⟩
  | forLoop ht hn hsign ha hmark hb hstep hbl hk hcounter iha ihb ihstep ihbl =>
      intro fs rest next w hq hrest hw
      simp only [Phrase.bodies, Bodies.expression, List.append_assoc] at hw
      have hrest₄ := hrest.within hcounter.sublist
      have hinside := hbl.ahead hrest₄
      have hrest₃ := hbl.ahead_body hinside [.kwNext]
      have hrest₂ := hstep.ahead hrest₃
      have hrest₁ := (hb.ahead hrest₂).behind
      have hrest₀ := (ha.ahead hrest₁.past).behind
      have hneutral := ((Bool.or_eq_true _ _).mp hsign).elim Token.neutral_of_operator
        Token.neutral_of_operator
      obtain ⟨_, u, n', us, rfl, htu, hnn, hv⟩ :=
        hw.neutrals hq (Token.neutral_of_keyword ht rfl) (Token.neutral_of_kind hn rfl) hrest₀.past
      obtain ⟨_, sign', us, hcons, hsigns, hsign'⟩ := hv.neutral hq hneutral hrest₀
      obtain ⟨-, rfl⟩ := Spot.mk.inj hcons
      obtain ⟨a', w₁, _, ha', hd₁, hw₁⟩ := iha hq hrest₁.past hsign'.forget
      obtain ⟨_, mark', us, rfl, hmarks, hmark'⟩ :=
        hw₁.neutral hq (Token.neutral_of_keyword hmark rfl) hrest₁
      obtain ⟨b', w₂, _, hb', hd₂, hw₂⟩ := ihb hq hrest₂ hmark'.forget
      obtain ⟨step', w₃, _, hstep', hd₃, hw₃⟩ := ihstep hq hrest₃ hw₂.forget
      obtain ⟨bl', w₄, _, hbl', hd₄, hw₄⟩ :=
        ihbl ⟨.body (by decide), rfl⟩ hrest₄ (hbl.intoBody hinside hw₃)
      obtain ⟨_, k', us, rfl, hkk, hk'⟩ := hw₄.word hk hrest₄ (by decide)
      obtain ⟨w₅, _, hcounter', hw₅⟩ := hcounter.rebroken hk' hq hrest n' hk rfl
      have hassigns : (sign'.isOperator .assign || sign'.isOperator .equal) = true := by
        simpa [Token.isOperator, hsigns.1.1] using hsign
      exact ⟨_, w₅, _, .forLoop htu (.written hnn hn) ha' hb' hstep' hbl' (.some hkk),
        .forLoop (isKeyword_of_verbatim htu ht) (hnn.1.1 ▸ hn) hassigns hd₁
          (isKeyword_of_verbatim hmarks hmark) hd₂ hd₃ hd₄ (isKeyword_of_verbatim hkk hk) hcounter',
        hw₅⟩
  -- Links
  | stop hs =>
      intro b' left' hb hleft fs rest next w hq hrest hw
      cases hb
      rw [Phrase.bodies, List.drop_length, List.nil_append] at hw
      exact ⟨left', w, _, hleft, .stop ((hw.link?_eq hq _).trans hs), hw⟩
  | binary hlink hy hlinks ih ih' =>
      intro b' left' hb hleft fs rest next w hq hrest hw
      cases hb
      have hlink' := (hw.link?_eq hq _).trans hlink
      have hrest₁ := hlinks.ahead hrest
      rw [hlinks.bodies_link rfl, List.append_assoc] at hw
      obtain ⟨_, u, us, rfl, htu, hv⟩ :=
        hw.neutral hq (Token.neutral_of_kind (kind_of_link? hlink) rfl) (hy.ahead hrest₁).behind
      obtain ⟨y', w₁, _, hy', hd₁, hw₁⟩ := ih hq hrest₁ hv.forget
      obtain ⟨x', w₂, _, hx', hd₂, hw₂⟩ := ih' .none (.binary htu hleft hy') hq hrest hw₁
      exact ⟨x', w₂, _, hx', .binary hlink' hd₁ hd₂, hw₂⟩
  | assign hlink htarget hy hlinks ih ih' =>
      intro b' left' hb hleft fs rest next w hq hrest hw
      cases hb
      have hlink' := (hw.link?_eq hq _).trans hlink
      have hrest₁ := hlinks.ahead hrest
      rw [hlinks.bodies_link rfl, List.append_assoc] at hw
      obtain ⟨_, u, us, rfl, htu, hv⟩ :=
        hw.neutral hq (Token.neutral_of_kind (kind_of_link? hlink) rfl) (hy.ahead hrest₁).behind
      obtain ⟨y', w₁, _, hy', hd₁, hw₁⟩ := ih hq hrest₁ hv.forget
      obtain ⟨x', w₂, _, hx', hd₂, hw₂⟩ := ih' .none (.assign htu hleft hy') hq hrest hw₁
      exact ⟨x', w₂, _, hx', .assign hlink' (isAssignable_eq hleft ▸ htarget) hd₁ hd₂, hw₂⟩
  | call hlink hxs hlinks ih ih' =>
      intro b' left' hb hleft fs rest next w hq hrest hw
      cases hb
      have hlink' := (hw.link?_eq hq _).trans hlink
      have hrest₁ := hlinks.ahead hrest
      rw [hlinks.bodies_link rfl, List.append_assoc] at hw
      obtain ⟨_, u, us, rfl, htu, hv⟩ :=
        hw.opening (isPunctuation_of_link? hlink rfl) (hxs.ahead hrest₁).behind rfl
      obtain ⟨xs', w₁, _, hxs', hd₁, hw₁⟩ := ih rfl hrest₁ hv.forget
      obtain ⟨x', w₂, _, hx', hd₂, hw₂⟩ := ih' .none (.call htu hleft hxs') hq hrest hw₁
      exact ⟨x', w₂, _, hx', .call hlink' hd₁ hd₂, hw₂⟩
  | index hlink hi hlinks ih ih' =>
      intro b' left' hb hleft fs rest next w hq hrest hw
      cases hb
      have hlink' := (hw.link?_eq hq _).trans hlink
      have hrest₁ := hlinks.ahead hrest
      rw [hlinks.bodies_link rfl, List.append_assoc] at hw
      obtain ⟨_, u, us, rfl, htu, hv⟩ :=
        hw.opening (isPunctuation_of_link? hlink rfl) (hi.ahead hrest₁).behind rfl
      obtain ⟨i', w₁, _, hi', hd₁, hw₁⟩ := @ih (.bracket :: fs) _ _ _ rfl hrest₁ hv.forget
      obtain ⟨x', w₂, _, hx', hd₂, hw₂⟩ := ih' (.some htu) (.index htu hleft hi') hq hrest hw₁
      exact ⟨x', w₂, _, hx', .index hlink' hd₁ hd₂, hw₂⟩
  | subscript ht hi hlinks ih ih' =>
      rintro _ left' ⟨hbracket⟩ hleft fs rest next w hq hrest hw
      have hrest₁ := hlinks.ahead hrest
      rw [hlinks.bodies_link rfl, List.append_assoc] at hw
      obtain ⟨_, u, us, rfl, htu, hv⟩ := hw.neutral (Context.Fits.bracket (c := .file))
        (Token.neutral_of_punctuation ht rfl) (hi.ahead hrest₁).behind
      obtain ⟨i', w₁, _, hi', hd₁, hw₁⟩ := @ih (.bracket :: fs) _ _ _ rfl hrest₁ hv.forget
      obtain ⟨x', w₂, _, hx', hd₂, hw₂⟩ :=
        ih' (.some hbracket) (.index hbracket hleft hi') hq hrest hw₁
      exact ⟨x', w₂, _, hx', .subscript (isPunctuation_of_verbatim htu ht) hd₁ hd₂, hw₂⟩
  | closeIndex ht hlinks ih =>
      rintro _ left' ⟨hbracket⟩ hleft fs rest next w hq hrest hw
      obtain ⟨_, u, us, rfl, htu, hv⟩ := hw.closing ht (hlinks.ahead hrest) rfl
      obtain ⟨x', w₁, _, hx', hd, hw₁⟩ := ih .none hleft hq hrest hv
      exact ⟨x', w₁, _, hx', .closeIndex (isPunctuation_of_verbatim htu ht) hd, hw₁⟩
  | member hlink hn hlinks ih =>
      intro b' left' hb hleft fs rest next w hq hrest hw
      cases hb
      have hlink' := (hw.link?_eq hq _).trans hlink
      have hrest₁ := hlinks.ahead hrest
      obtain ⟨_, u, n', us, rfl, htu, hnn, hv⟩ := hw.neutrals hq
        (Token.neutral_of_kind (kind_of_link? hlink) rfl) (Token.neutral_of_kind hn rfl) hrest₁
      obtain ⟨x', w₁, _, hx', hd, hw₁⟩ :=
        ih .none (.member htu hleft (.written hnn hn)) hq hrest hv
      exact ⟨x', w₁, _, hx', .member hlink' (hnn.1.1 ▸ hn) hd, hw₁⟩
  -- Lists of expressions
  | lastExpression _ hs ih =>
      intro fs rest next w hq hrest hw
      simp only [Phrase.bodies, Bodies.expressions, List.append_nil] at hw
      obtain ⟨x', w₁, _, hx', hd, hw₁⟩ := ih hq hrest hw
      exact ⟨[x'], w₁, _, .expressions hx' .noExpressions,
        .lastExpression hd ((hw₁.next_eq (· == .punctuation .comma)).trans hs), hw₁⟩
  | moreExpressions _ ht hxs ih ih' =>
      intro fs rest next w hq hrest hw
      simp only [Phrase.bodies, Bodies.expressions, List.append_assoc] at hw
      have hrest₁ := (hxs.ahead hrest).behind
      obtain ⟨x', w₁, _, hx', hd₁, hw₁⟩ := ih hq hrest₁.past hw
      obtain ⟨_, u, us, rfl, htu, hv⟩ :=
        hw₁.neutral hq (Token.neutral_of_punctuation ht rfl) hrest₁
      obtain ⟨xs', w₂, _, hxs', hd₂, hw₂⟩ := ih' hq hrest hv.forget
      exact ⟨x' :: xs', w₂, _, .expressions hx' hxs',
        .moreExpressions hd₁ (isPunctuation_of_verbatim htu ht) hd₂, hw₂⟩
  | noArguments ht =>
      intro fs rest next w hq hrest hw
      obtain ⟨_, u, us, rfl, htu, hv⟩ := hw.closing ht hrest hq
      exact ⟨[], _, _, .noExpressions, .noArguments (isPunctuation_of_verbatim htu ht), hv⟩
  | arguments hs _ ht ih =>
      intro fs rest next w hq hrest hw
      have hs' := (hw.next_eq (· == .punctuation _)).trans hs
      obtain ⟨xs', w₁, _, hxs', hd, hw₁⟩ := @ih (.bracket :: fs) _ _ _ rfl hrest.past hw
      obtain ⟨_, u, us, rfl, htu, hv⟩ := hw₁.closing ht hrest hq
      exact ⟨xs', _, _, hxs', .arguments hs' hd (isPunctuation_of_verbatim htu ht), hv⟩
  -- Parts of conditionals and loops
  | noStep hs =>
      intro fs rest next w hq hrest hw
      exact ⟨none, w, _, .noExpression, .noStep ((hw.next_eq (· == .keyword .kwStep)).trans hs),
        hw⟩
  | step ht hx ih =>
      intro fs rest next w hq hrest hw
      obtain ⟨_, u, us, rfl, htu, hv⟩ :=
        hw.neutral hq (Token.neutral_of_keyword ht rfl) (hx.ahead hrest).behind
      obtain ⟨x', w₁, _, hx', hd, hw₁⟩ := ih hq hrest hv.forget
      exact ⟨some x', w₁, _, .someExpression hx', .step (isKeyword_of_verbatim htu ht) hd,
        hw₁.forget⟩
  | guarded _ hb ih ih' =>
      intro t' ht fs rest next w hq hrest hw
      simp only [Phrase.bodies, Bodies.guarded, List.append_assoc] at hw
      have hinside := hb.ahead hrest
      obtain ⟨x', w₁, _, hx', hd₁, hw₁⟩ := ih hq.1 (hb.ahead_body hinside _) hw
      obtain ⟨b', w₂, _, hb', hd₂, hw₂⟩ :=
        ih' ⟨.body hq.2, rfl⟩ hrest (hb.intoBody hinside hw₁)
      exact ⟨⟨t', x', b'⟩, w₂, _, ⟨rfl, .guarded ht hx' hb'⟩, .guarded hd₁ hd₂, hw₂⟩
  | noBranches hs =>
      intro fs rest next w hq hrest hw
      exact ⟨[], w, _, .noBranches,
        .noBranches ((hw.next_eq (· == .keyword .kwElseIf)).trans hs), hw⟩
  | branches ht hg hgs ih ih' =>
      intro fs rest next w hq hrest hw
      simp only [Phrase.bodies, Bodies.branches, List.append_assoc] at hw
      have hrest₁ := hgs.ahead hrest
      obtain ⟨_, u, us, rfl, htu, hv⟩ := hw.word ht (hg.ahead hrest₁).behind (by decide)
      obtain ⟨⟨_, x', b'⟩, w₁, _, ⟨rfl, hg'⟩, hd₁, hw₁⟩ :=
        ih htu ⟨hq, by decide⟩ hrest₁ hv.forget
      obtain ⟨gs', w₂, _, hgs', hd₂, hw₂⟩ := ih' hq hrest hw₁
      exact ⟨⟨_, x', b'⟩ :: gs', w₂, _, .branches hg' hgs',
        .branches (isKeyword_of_verbatim htu ht) hd₁ hd₂, hw₂⟩
  | noAlternative hs =>
      intro fs rest next w hq hrest hw
      exact ⟨none, w, _, .noBlock,
        .noAlternative ((hw.next_eq (· == .keyword .kwElse)).trans hs), hw⟩
  | alternative ht hb ih =>
      intro fs rest next w hq hrest hw
      have hinside := hb.ahead hrest
      obtain ⟨_, u, us, rfl, htu, hv⟩ := hw.word ht (hb.ahead_body hinside [.kwEndIf]) (by decide)
      obtain ⟨b', w₁, _, hb', hd, hw₁⟩ :=
        ih ⟨.body (by decide), rfl⟩ hrest (hb.intoBody hinside hv)
      exact ⟨some b', w₁, _, .someBlock hb', .alternative (isKeyword_of_verbatim htu ht) hd, hw₁⟩
  -- Statements
  | block hss ih =>
      intro fs rest next w hq hrest hw
      obtain ⟨ss', w₁, _, hss', hd, hw₁⟩ := ih hq hrest hw
      obtain ⟨l', us⟩ := w
      cases hw.texts with
      | ended ht =>
          -- At the end of the text there is no statement.
          cases hss with
          | noStatements _ =>
              cases hss'
              exact ⟨⟨_, []⟩, w₁, _, .emptyBlock (.inr ht), .block hd, hw₁⟩
          | statements hs _ _ => simp [Spot.blockEnds, ht.2.2] at hs
      | step ht _ _ _ =>
          exact ⟨⟨_, ss'⟩, w₁, _, .block ht (statements_of_forall₂ hss'), .block hd, hw₁⟩
  | noStatements hs =>
      intro fs rest next w hq hrest hw
      exact ⟨[], w, _, .nil, .noStatements (hw.blockEnds_eq.trans hs), hw⟩
  | statements hs hx hss ih ih' =>
      intro fs rest next w hq hrest hw
      rw [Phrase.bodies, Bodies.stmts_append, List.append_assoc] at hw
      obtain ⟨xs, w₁, _, hxs, hd₁, hw₁⟩ := ih hq (hss.ahead hrest) hw
      obtain ⟨ys, w₂, _, hys, hd₂, hw₂⟩ := ih' hq hrest hw₁
      exact ⟨xs ++ ys, w₂, _, List.rel_append hxs hys,
        .statements (hw.blockEnds_eq.trans hs) hd₁ hd₂, hw₂⟩
  | variableList ht hds hs ih =>
      intro fs rest next w hq hrest hw
      rw [Phrase.bodies, Bodies.stmts_variables] at hw
      obtain ⟨_, u, us, rfl, htu, hv⟩ := hw.neutral hq.1 (Token.neutral_of_storage ht)
        (hds.ahead (Ahead.behind hrest)).behind
      obtain ⟨ds', w₁, _, hds', hd, hw₁⟩ := ih hq (Ahead.behind hrest) hv.forget
      exact ⟨_, w₁, _, variables_alike htu hds',
        .variableList (htu.1.1 ▸ ht) hd ((hw₁.stops_eq hq.1 hq.2).trans hs), hw₁.forget⟩
  | returnNothing ht hs =>
      intro fs rest next w hq hrest hw
      obtain ⟨_, u, us, rfl, htu, hv⟩ :=
        hw.neutral hq.1 (Token.neutral_of_keyword ht rfl) (Ahead.behind hrest)
      exact ⟨[.ret u none], _, _, .cons (.ret htu .noExpression) .nil,
        .returnNothing (isKeyword_of_verbatim htu ht) ((hv.stops_eq hq.1 hq.2).trans hs),
        hv.forget⟩
  | returnValue ht hs hx hs' ih =>
      intro fs rest next w hq hrest hw
      simp only [Phrase.bodies, Bodies.stmts, Bodies.stmt, Bodies.ifAny, List.append_nil] at hw
      obtain ⟨_, u, us, rfl, htu, hv⟩ := hw.neutral hq.1 (Token.neutral_of_keyword ht rfl)
        (hx.ahead (Ahead.behind hrest)).behind
      obtain ⟨x', w₁, _, hx', hd, hw₁⟩ := ih hq.1 (Ahead.behind hrest) hv.forget
      exact ⟨[.ret u (some x')], w₁, _, .cons (.ret htu (.someExpression hx')) .nil,
        .returnValue (isKeyword_of_verbatim htu ht) ((hv.stops_eq hq.1 hq.2).trans hs) hd
          ((hw₁.stops_eq hq.1 hq.2).trans hs'), hw₁.forget⟩
  | value hx hs ih =>
      intro fs rest next w hq hrest hw
      simp only [Phrase.bodies, Bodies.stmts, Bodies.stmt, List.append_nil] at hw
      obtain ⟨st, hst⟩ := hx.begins
      obtain ⟨x', w₁, _, hx', hd, hw₁⟩ := ih hq.1 (Ahead.behind hrest) hw
      obtain ⟨l', us⟩ := w
      cases hw.texts with
      | ended ht => exact absurd ht.2.2 (Bool.eq_false_iff.mp hst.isEnd)
      | step ht _ _ _ =>
          exact ⟨[.expression _ x'], w₁, _, .cons (.expression ht hx') .nil,
            .value hd ((hw₁.stops_eq hq.1 hq.2).trans hs), hw₁.forget⟩
  | function hc ht hx ih =>
      intro fs rest next w hq hrest hw
      simp only [Phrase.bodies, Bodies.stmts, Bodies.stmt, List.append_nil] at hw
      obtain ⟨_, u, us, rfl, htu, hv⟩ :=
        hw.neutral hq.1 (Token.neutral_of_keyword ht rfl) (hx.ahead hrest).behind
      obtain ⟨⟨_, n', ps', b', k'⟩, w₁, _, ⟨rfl, hx'⟩, hd, hw₁⟩ :=
        ih htu ⟨hq.1, hq.2, rfl⟩ hrest hv.forget
      exact ⟨_, w₁, _, .cons (hc.symm ▸ .function hx') .nil,
        .function hc (isKeyword_of_verbatim htu ht) hd, hw₁⟩
  | staticFunction hc ht hf hx ih =>
      intro fs rest next w hq hrest hw
      simp only [Phrase.bodies, Bodies.stmts, Bodies.stmt, List.append_nil] at hw
      have hrest₁ := (hx.ahead hrest).behind
      obtain ⟨_, u, f', us, rfl, htu, hff, hv⟩ :=
        hw.neutrals hq.1 (Token.neutral_of_keyword ht rfl) (Token.neutral_of_keyword hf rfl) hrest₁
      obtain ⟨⟨_, n', ps', b', k'⟩, w₁, _, ⟨rfl, hx'⟩, hd, hw₁⟩ :=
        ih htu ⟨hq.1, hq.2, rfl⟩ hrest hv.forget
      exact ⟨_, w₁, _, .cons (hc.symm ▸ .function hx') .nil,
        .staticFunction hc (isKeyword_of_verbatim htu ht) (isKeyword_of_verbatim hff hf) hd, hw₁⟩
  | classDef hc ht hn hparent hms hk ih =>
      intro fs rest next w hq hrest hw
      simp only [Phrase.bodies, Bodies.stmts, Bodies.stmt, Bodies.classDefinition,
        Bodies.routines_methods, List.append_nil] at hw
      have hrest₂ := (hms.ahead (Ahead.behind hrest)).behind
      have hrest₁ := hrest₂.within hparent.sublist
      obtain ⟨_, u, n', us, rfl, htu, hnn, hv⟩ :=
        hw.neutrals hq.1 (Token.neutral_of_keyword ht rfl) (Token.neutral_of_kind hn rfl) hrest₁
      obtain ⟨parent', w₁, _, hparent', hd₁, hw₁⟩ := hparent.rebroken hv hq.1 hrest₂
      obtain ⟨ms', w₂, _, hms', hd₂, hw₂⟩ :=
        ih ⟨hq.1.enter hq.2 _, rfl⟩ (Ahead.behind hrest) hw₁
      obtain ⟨_, k', us, rfl, hkk, hk'⟩ :=
        hw₂.neutral hq.1 (Token.neutral_of_keyword hk rfl) (Ahead.behind hrest)
      have hparted := parted_alike hms'
      exact ⟨_, _, _, .cons (hc.symm ▸ .classDef (.classDefinition htu (.written hnn hn) hparent'
          hparted.1 hparted.2 (.some hkk))) .nil,
        .classDef hc (isKeyword_of_verbatim htu ht) (hnn.1.1 ▸ hn) hd₁ hd₂
          (isKeyword_of_verbatim hkk hk), hk'.forget⟩
  -- Parts of declarations
  | declared hn hs =>
      intro fs rest next w hq hrest hw
      obtain ⟨_, u, us, rfl, hnu, hv⟩ := hw.neutral hq.1 (Token.neutral_of_kind hn rfl) hrest
      exact ⟨(⟨u⟩, none), _, _, ⟨.written hnu hn, .noExpression⟩,
        .declared (hnu.1.1 ▸ hn) ((hv.next_eq (· == .operator .assign)).trans hs), hv⟩
  | initialized hn hsign hx ih =>
      intro fs rest next w hq hrest hw
      have hrest₁ := (hx.ahead hrest).behind
      obtain ⟨_, u, sign', us, rfl, hnu, hsigns, hv⟩ :=
        hw.neutrals hq.1 (Token.neutral_of_kind hn rfl) (Token.neutral_of_operator hsign) hrest₁
      obtain ⟨x', w₁, _, hx', hd, hw₁⟩ := ih hq.1 hrest hv.forget
      exact ⟨(⟨u⟩, some x'), w₁, _, ⟨.written hnu hn, .someExpression hx'⟩,
        .initialized (hnu.1.1 ▸ hn) (isOperator_of_verbatim hsigns hsign) hd, hw₁⟩
  | lastDeclarator _ hs ih =>
      intro fs rest next w hq hrest hw
      simp only [Phrase.bodies, List.flatMap_cons, List.flatMap_nil, List.append_nil] at hw
      obtain ⟨d', w₁, _, hd', hd, hw₁⟩ := ih hq hrest hw
      exact ⟨[d'], w₁, _, .cons hd' .nil,
        .lastDeclarator hd ((hw₁.next_eq (· == .punctuation .comma)).trans hs), hw₁⟩
  | moreDeclarators _ ht hds ih ih' =>
      intro fs rest next w hq hrest hw
      simp only [Phrase.bodies, List.flatMap_cons, List.append_assoc] at hw
      have hrest₁ := (hds.ahead hrest).behind
      obtain ⟨d', w₁, _, hd', hd₁, hw₁⟩ := ih hq hrest₁.past hw
      obtain ⟨_, u, us, rfl, htu, hv⟩ :=
        hw₁.neutral hq.1 (Token.neutral_of_punctuation ht rfl) hrest₁
      obtain ⟨ds', w₂, _, hds', hd₂, hw₂⟩ := ih' hq hrest hv.forget
      exact ⟨d' :: ds', w₂, _, .cons hd' hds',
        .moreDeclarators hd₁ (isPunctuation_of_verbatim htu ht) hd₂, hw₂⟩
  | routine hn hps hb hc ih =>
      intro t' ht fs rest next w hq hrest hw
      obtain ⟨hfits, hdelimited, hneutral⟩ := hq
      rw [Phrase.bodies, Bodies.routine_eq] at hw
      have hrest₃ : Ahead rest _ := Ahead.within hrest hc.sublist.tail
      have hrest₂ := (hb.ahead hrest₃).behind
      have hrest₁ := hrest₂.within hps.sublist
      obtain ⟨_, n', us, rfl, hnn, hv⟩ := hw.neutral hfits (Token.neutral_of_kind hn rfl) hrest₁
      obtain ⟨ps', w₁, _, hps', hd₁, hw₁⟩ := hps.rebroken hv hfits hrest₂ hdelimited rfl
      obtain ⟨b', w₂, _, hb', hd₂, hw₂⟩ :=
        ih ⟨hfits.enter hdelimited _, rfl⟩ hrest₃ hw₁.forget
      obtain ⟨k', w₃, _, hk', hd₃, hw₃⟩ := hc.rebroken hw₂ hfits (Ahead.behind hrest) hneutral
      exact ⟨⟨t', ⟨n'⟩, ps', b', k'⟩, w₃, _, ⟨rfl, .routine ht (.written hnn hn) hps' hb' hk'⟩,
        .routine (hnn.1.1 ▸ hn) hd₁ hd₂ hd₃, hw₃⟩
  | noMembers hs =>
      intro fs rest next w hq hrest hw
      exact ⟨[], w, _, .nil, .noMembers (hw.moreMembers_eq.trans hs), hw⟩
  | members hm hms ih ih' =>
      intro fs rest next w hq hrest hw
      rw [Phrase.bodies, List.flatMap_append, List.append_assoc] at hw
      obtain ⟨xs, w₁, _, hxs, hd₁, hw₁⟩ := ih hq (hms.ahead hrest) hw
      obtain ⟨ys, w₂, _, hys, hd₂, hw₂⟩ := ih' hq hrest hw₁
      exact ⟨xs ++ ys, w₂, _, List.rel_append hxs hys, .members hd₁ hd₂, hw₂⟩
  | attributes ht hns hs =>
      intro fs rest next w hq hrest hw
      rw [Phrase.bodies, Bodies.attributes_eq, List.nil_append] at hw
      have hrest₁ := ((Ahead.behind hrest).within hns.sublist).behind
      obtain ⟨_, u, us, rfl, htu, hv⟩ := hw.neutral hq.1 (Token.neutral_of_keyword ht rfl) hrest₁
      obtain ⟨ns', w₁, _, hns', hd, hw₁⟩ := hns.rebroken hv hq.1 (Ahead.behind hrest)
      refine ⟨_, w₁, _, ?_, .attributes (isKeyword_of_verbatim htu ht) hd
        ((hw₁.stops_eq hq.1 hq.2).trans hs), hw₁.forget⟩
      rw [List.forall₂_map_left_iff, List.forall₂_map_right_iff]
      exact hns'.imp fun _ _ hn => .data ⟨htu, hn⟩
  | method ht hx ih =>
      intro fs rest next w hq hrest hw
      simp only [Phrase.bodies, List.flatMap_cons, List.flatMap_nil, List.append_nil,
        Bodies.member] at hw
      obtain ⟨_, u, us, rfl, htu, hv⟩ :=
        hw.neutral hq.1 (Token.neutral_of_keyword ht rfl) (hx.ahead hrest).behind
      obtain ⟨⟨_, n', ps', b', k'⟩, w₁, _, ⟨rfl, hx'⟩, hd, hw₁⟩ :=
        ih htu ⟨hq.1, hq.2, rfl⟩ hrest hv.forget
      exact ⟨_, w₁, _, .cons (.method hx') .nil, .method (isKeyword_of_verbatim htu ht) hd, hw₁⟩

end Grammar

end Clipper
