import Clipper.Proofs.Setting.Spots

/-!
A phrase that is read in one place is read in every other place where its tokens stand on a line,
of expressions of no greater depth. Only behind an expression is it asked what follows, and there
it has to be known that nothing goes on.
-/

namespace Clipper.Grammar

open Correspondence

variable {S : Setting} {lax : Bool} {m : Nat} {q : Phrase} {s s' w : Spot} {t : Token}

/-! ### What is taken -/

/-- Reading goes forward. -/
theorem Derives.length_le (h : Derives lax m q s s') : s'.rest.length ≤ s.rest.length := by
  induction h with
  | name | integer | float | string | date | boolean | nil | noArguments | returnNothing | declared
  | ownMember =>
      simp only [List.length_cons]
      omega
  | stop | noStep | noBranches | noAlternative | noStatements | noMembers => exact Nat.le_refl _
  | expression _ _ ih ih' | guarded _ _ ih ih' | statements _ _ _ ih ih' | members _ _ ih ih' =>
      exact Nat.le_trans ih' ih
  | lastExpression _ _ ih | lastDeclarator _ _ ih | block _ ih | value _ _ ih => exact ih
  | unary _ _ ih | array _ _ ih | closeIndex _ _ ih | step _ _ ih | alternative _ _ ih
  | variableList _ _ _ ih | returnValue _ _ _ _ ih | function _ _ _ ih | method _ _ ih
  | arguments _ _ _ ih | group _ _ _ ih | member _ _ _ ih | staticFunction _ _ _ _ ih
  | initialized _ _ _ ih =>
      simp only [List.length_cons] at *
      omega
  | binary _ _ _ ih ih' | assign _ _ _ _ ih ih' | call _ _ _ ih ih' | index _ _ _ ih ih'
  | subscript _ _ _ ih ih' | moreExpressions _ _ _ ih ih' | branches _ _ _ ih ih'
  | moreDeclarators _ _ _ ih ih' =>
      simp only [List.length_cons] at *
      omega
  | branch _ _ _ _ _ ih ih' ih'' =>
      simp only [List.length_cons] at *
      omega
  | whileLoop hword _ _ ih =>
      have := hword.sublist.length_le
      simp only [List.length_cons, List.length_tail] at *
      omega
  | forLoop _ _ _ _ _ _ _ _ _ hcounter iha ihb ihstep ihbl =>
      have := hcounter.sublist.length_le
      simp only [List.length_cons] at *
      omega
  | classDef _ _ _ hparent _ _ ih =>
      have := hparent.sublist.length_le
      simp only [List.length_cons] at *
      omega
  | routine _ hps _ hc ih =>
      have := hps.sublist.length_le
      have := hc.sublist.length_le
      simp only [List.length_cons] at *
      omega
  | attributes _ hns _ =>
      have := hns.sublist.length_le
      simp only [List.length_cons, List.length_tail] at *
      omega

/-! ### Parts without expressions -/

section Parts

variable (hw : S.Spots s w)

include hw

theorem Names.carried {ns : List Name} (h : Names ns s s') (hs : S.behind.length < s'.rest.length) :
    ∃ ns' w', List.Forall₂ verbatim.Names ns ns' ∧ Names ns' w w' ∧ S.Spots s' w' := by
  induction h generalizing w with
  | last hn hcomma =>
      obtain ⟨u, us, rfl, -, htu, hv⟩ := hw.taken (Nat.le_of_lt hs)
      exact ⟨_, _, .cons (.written htu hn) .nil,
        .last (htu.1.1 ▸ hn) ((hv.next_eq hs (· == .punctuation .comma)).trans hcomma), hv⟩
  | more hn hcomma hns ih =>
      have hle := hns.sublist.length_le
      simp only [List.length_tail] at hle
      obtain ⟨u, v, us, rfl, htu, hcommav, hv⟩ := hw.takenBoth (by omega)
      obtain ⟨ns', w', hnames, hd, hw'⟩ := ih hv hs
      exact ⟨_, w', .cons (.written htu hn) hnames,
        .more (htu.1.1 ▸ hn) (isPunctuation_of_verbatim hcommav hcomma) hd, hw'⟩

theorem Parameters.carried {ns : List Name} (h : Parameters ns s s')
    (hs : S.behind.length < s'.rest.length) :
    ∃ ns' w', List.Forall₂ verbatim.Names ns ns' ∧ Parameters ns' w w' ∧ S.Spots s' w' := by
  have hin := Nat.lt_of_lt_of_le hs h.sublist.length_le
  have hline := hw.onLine_eq hin (· == .punctuation .openParen)
  cases h with
  | absent hnone => exact ⟨[], w, .nil, .absent (hline.trans hnone), hw⟩
  | empty ho _ hclose =>
      obtain ⟨u, v, us, rfl, hou, hclosev, hv⟩ := hw.takenBoth (Nat.le_of_lt hs)
      exact ⟨[], _, .nil, .empty (isPunctuation_of_verbatim hou ho) rfl
        (isPunctuation_of_verbatim hclosev hclose), hv⟩
  | names ho _ hns hclose =>
      have hle := hns.sublist.length_le
      simp only [List.length_cons, List.length_tail] at hle hs
      obtain ⟨u, us, rfl, -, hou, hv⟩ := hw.taken (by omega)
      obtain ⟨ns', w', hnames, hd, hv'⟩ := hns.carried hv (Nat.lt_succ_of_lt hs)
      obtain ⟨v, us, rfl, -, hclosev, hv'⟩ := hv'.taken (Nat.le_of_lt hs)
      exact ⟨ns', _, hnames, .names (isPunctuation_of_verbatim hou ho) rfl hd
        (isPunctuation_of_verbatim hclosev hclose), hv'⟩

theorem Closing.carried {k : Keyword} {closed : Option Token} (h : Closing k closed s s')
    (hs : S.behind.length < s'.rest.length) :
    ∃ closed' w', Option.Rel verbatim.token closed closed' ∧ Closing k closed' w w' ∧
      S.Spots s' w' := by
  cases h with
  | absent hnone =>
      exact ⟨none, w, .none, .absent ((hw.next_eq hs (· == .keyword k)).trans hnone), hw⟩
  | word ht =>
      obtain ⟨u, us, rfl, -, htu, hv⟩ := hw.taken (Nat.le_of_lt hs)
      exact ⟨some u, _, .some htu, .word (isKeyword_of_verbatim htu ht), hv⟩

theorem Parent.carried {parent : Option Name} (h : Parent parent s s')
    (hs : S.behind.length < s'.rest.length) :
    ∃ parent' w', Option.Rel verbatim.Names parent parent' ∧ Parent parent' w w' ∧
      S.Spots s' w' := by
  cases h with
  | absent hnone =>
      exact ⟨none, w, .none, .absent ((hw.next_eq hs (· == .keyword .kwFrom)).trans hnone), hw⟩
  | named hf ht =>
      obtain ⟨u, v, us, rfl, hfu, htv, hv⟩ := hw.takenBoth (Nat.le_of_lt hs)
      exact ⟨some ⟨v⟩, _, .some (.written htv ht),
        .named (isKeyword_of_verbatim hfu hf) (htv.1.1 ▸ ht), hv⟩

theorem LoopWord.carried (h : LoopWord t s s') (hs : S.behind.length < s'.rest.length) :
    ∃ u w', verbatim.token t u ∧ LoopWord u w w' ∧ S.Spots s' w' := by
  cases h with
  | «while» ht =>
      obtain ⟨u, us, rfl, -, htu, hv⟩ := hw.taken (Nat.le_of_lt hs)
      exact ⟨u, _, htu, .while (isKeyword_of_verbatim htu ht), hv⟩
  | doWhile ht hword =>
      obtain ⟨u, v, us, rfl, htu, hwordv, hv⟩ := hw.takenBoth (Nat.le_of_lt hs)
      exact ⟨u, _, htu,
        .doWhile (isKeyword_of_verbatim htu ht) (isKeyword_of_verbatim hwordv hword), hv⟩

theorem CounterAgain.carried {n n' : Token} (hn : verbatim.token n n')
    (h : CounterAgain lax n s s') (hs : S.behind.length + S.margin ≤ s'.rest.length) :
    ∃ w', CounterAgain lax n' w w' ∧ S.Spots s' w' := by
  cases h with
  | absent hnone => exact ⟨w, .absent ((hw.counter_eq hs).trans hnone), hw⟩
  | named ht _ hsame =>
      obtain ⟨u, us, rfl, -, htu, hv⟩ := hw.taken (Nat.le_of_add_right_le hs)
      rw [htu.1.2, hn.1.2] at hsame
      exact ⟨_, .named (htu.1.1 ▸ ht) rfl hsame, hv⟩

end Parts

/-! ### Phrases -/

/-- How much of the stretch has to be left behind the phrase. -/
def Phrase.margin (S : Setting) : Phrase → Nat
  | .expression _ _ _ | .operand _ _ | .links _ _ _ _ _ => S.margin
  | .arguments _ _ _ => 0
  | _ => 1

theorem Phrase.margin_le (S : Setting) (q : Phrase) : q.margin S ≤ 1 := by
  cases q <;> simp [margin, S.margin_le]

/-- What is read between these spots is read in the other place as well, with a tree that is
alike, inside of delimiters and outside. -/
def Carries {α : Type} (S : Setting) (lax : Bool) (m : Nat) (s s' : Spot)
    (f : Context → α → Phrase) (c : Context) (x : α) (R : α → Prop) : Prop :=
  ∀ ⦃w⦄, S.Spots s w → S.behind.length + (f c x).margin S ≤ s'.rest.length →
    ∃ y w', R y ∧ S.Spots s' w' ∧ ∀ b, Derives lax m (f (c.inside b) y) w w'

/-- What is read in the other place. A phrase goes on with what was read in front of it. -/
def Phrase.Carried (S : Setting) (lax : Bool) (m : Nat) (s s' : Spot) : Phrase → Prop
  | .expression c p x =>
      Carries S lax m s s' (fun c => .expression c p) c x (verbatim.Exprs c.inRoutine x)
  | .operand c x => Carries S lax m s s' .operand c x (verbatim.Exprs c.inRoutine x)
  | .links c p b left x => ∀ ⦃b' left'⦄, Option.Rel verbatim.token b b' →
      verbatim.Exprs c.inRoutine left left' →
      Carries S lax m s s' (fun c => .links c p b' left') c x (verbatim.Exprs c.inRoutine x)
  | .expressions c xs => Carries S lax m s s' .expressions c xs
      (fun ys => Part.Alike verbatim c.inRoutine (.expressions xs) (.expressions ys))
  | .arguments c close xs => Carries S lax m s s' (fun c => .arguments c close) c xs
      (fun ys => Part.Alike verbatim c.inRoutine (.expressions xs) (.expressions ys))
  | .step c x => Carries S lax m s s' .step c x (verbatim.ExprsIfAny c.inRoutine x)
  | .guarded c closers g => ∀ ⦃t'⦄, verbatim.token g.token t' →
      Carries S lax m s s' (fun c => .guarded c closers) c g
        (fun g' => g'.token = t' ∧ Part.Alike verbatim c.inRoutine (.guarded g) (.guarded g'))
  | .branches c gs => Carries S lax m s s' .branches c gs
      (fun gs' => Part.Alike verbatim c.inRoutine (.branches gs) (.branches gs'))
  | .alternative c b => Carries S lax m s s' .alternative c b
      (fun b' => Part.Alike verbatim c.inRoutine (.blockIfAny b) (.blockIfAny b'))
  | .block c b => Carries S lax m s s' .block c b (verbatim.Blocks c.inRoutine b)
  | .statements c ss => Carries S lax m s s' .statements c ss
      (List.Forall₂ (verbatim.Stmts c.inRoutine) ss)
  | .statement c ss => Carries S lax m s s' .statement c ss
      (List.Forall₂ (verbatim.Stmts c.inRoutine) ss)
  | .declarator c d => Carries S lax m s s' .declarator c d (verbatim.Declarators c.inRoutine d)
  | .declarators c ds => Carries S lax m s s' .declarators c ds
      (List.Forall₂ (verbatim.Declarators c.inRoutine) ds)
  | .routine c closers close x => ∀ ⦃t'⦄, verbatim.token x.token t' →
      Carries S lax m s s' (fun c => .routine c closers close) c x
        (fun x' => x'.token = t' ∧ verbatim.Routines true x x')
  | .members c ms => Carries S lax m s s' .members c ms (List.Forall₂ verbatim.Members ms)
  | .member c ms => Carries S lax m s s' .member c ms (List.Forall₂ verbatim.Members ms)

/-- Inside of the stretch every phrase has the room that it needs. -/
theorem room (q : Phrase) {n : Nat} (h : S.behind.length < n) :
    S.behind.length + q.margin S ≤ n := by
  have := q.margin_le S
  omega

theorem passed {n j k l : Nat} (h : n + j ≤ k) (hle : k ≤ l) : n ≤ l :=
  Nat.le_trans (Nat.le_of_add_right_le h) hle

/-- What is read in one place is read alike in the other. -/
theorem Derives.carried (S : Setting) (h : Derives lax m q s s') : q.Carried S lax m s s' := by
  -- Each case takes its tokens one by one, and what is read behind them shows that they are in
  -- the stretch.
  induction h with
  | expression _ hlinks ih ih' =>
      intro w hw hs
      obtain ⟨left', w₁, hleft, hw₁, hd₁⟩ := ih hw (Nat.le_trans hs hlinks.length_le)
      obtain ⟨x', w₂, hx, hw₂, hd₂⟩ := ih' .none hleft hw₁ hs
      exact ⟨x', w₂, hx, hw₂, fun b => .expression (hd₁ b) (hd₂ b)⟩
  -- Operands
  | name ht =>
      intro w hw hs
      obtain ⟨u, us, rfl, -, htu, hv⟩ := hw.taken (Nat.le_of_add_right_le hs)
      exact ⟨_, _, .name htu ht, hv, fun _ => .name (htu.1.1 ▸ ht)⟩
  | integer ht hbound =>
      intro w hw hs
      obtain ⟨u, us, rfl, -, htu, hv⟩ := hw.taken (Nat.le_of_add_right_le hs)
      refine ⟨_, _, .integer htu, hv, fun _ => ?_⟩
      rw [htu.1.2] at hbound ⊢
      exact .integer (htu.1.1 ▸ ht) hbound
  | float ht hbits =>
      intro w hw hs
      obtain ⟨u, us, rfl, -, htu, hv⟩ := hw.taken (Nat.le_of_add_right_le hs)
      exact ⟨_, _, .float htu, hv, fun _ => .float (htu.1.1 ▸ ht) (htu.1.2 ▸ hbits)⟩
  | string ht =>
      intro w hw hs
      obtain ⟨u, us, rfl, -, htu, hv⟩ := hw.taken (Nat.le_of_add_right_le hs)
      refine ⟨_, _, .string htu, hv, fun _ => ?_⟩
      rw [htu.1.2]
      exact .string (htu.1.1 ▸ ht)
  | date ht =>
      intro w hw hs
      obtain ⟨u, us, rfl, -, htu, hv⟩ := hw.taken (Nat.le_of_add_right_le hs)
      exact ⟨_, _, .date htu, hv, fun _ => .date (htu.1.1 ▸ ht)⟩
  | boolean ht =>
      intro w hw hs
      obtain ⟨u, us, rfl, -, htu, hv⟩ := hw.taken (Nat.le_of_add_right_le hs)
      exact ⟨_, _, .boolean htu, hv, fun _ => .boolean (htu.1.1 ▸ ht)⟩
  | nil ht =>
      intro w hw hs
      obtain ⟨u, us, rfl, -, htu, hv⟩ := hw.taken (Nat.le_of_add_right_le hs)
      exact ⟨_, _, .nil htu, hv, fun _ => .nil (htu.1.1 ▸ ht)⟩
  | unary ht hx ih =>
      intro w hw hs
      obtain ⟨u, us, rfl, -, htu, hv⟩ := hw.taken (passed hs hx.length_le)
      obtain ⟨x', w₁, hx', hw₁, hd⟩ := ih hv hs
      exact ⟨_, w₁, .unary htu hx', hw₁, fun b => .unary (htu.1.1 ▸ ht) (hd b)⟩
  | group ht hx hclose ih =>
      intro w hw hs
      have hin := Nat.lt_succ_of_le (Nat.le_of_add_right_le hs)
      obtain ⟨u, us, rfl, -, htu, hv⟩ := hw.taken (Nat.le_trans (Nat.le_of_lt hin) hx.length_le)
      obtain ⟨x', w₁, hx', hw₁, hd⟩ := ih hv (room _ hin)
      obtain ⟨k, us, rfl, -, hk, hv⟩ := hw₁.taken (Nat.le_of_add_right_le hs)
      exact ⟨x', _, hx', hv, fun _ => .group (isPunctuation_of_verbatim htu ht) (hd true)
        (isPunctuation_of_verbatim hk hclose)⟩
  | array ht hxs ih =>
      intro w hw hs
      obtain ⟨u, us, rfl, -, htu, hv⟩ := hw.taken (passed hs hxs.length_le)
      obtain ⟨xs', w₁, hxs', hw₁, hd⟩ := ih hv (Nat.le_of_add_right_le hs)
      exact ⟨_, w₁, .array htu hxs', hw₁,
        fun b => .array (isPunctuation_of_verbatim htu ht) (hd b)⟩
  | ownMember ht hn =>
      intro w hw hs
      obtain ⟨u, n', us, rfl, htu, hnn, hv⟩ := hw.takenBoth (Nat.le_of_add_right_le hs)
      exact ⟨_, _, .ownMember htu (.written hnn hn), hv,
        fun _ => .ownMember (isPunctuation_of_verbatim htu ht) (hnn.1.1 ▸ hn)⟩
  | branch ht hg hgs hother hk ih ih' ih'' =>
      intro w hw hs
      have hin₃ := Nat.lt_succ_of_le (Nat.le_of_add_right_le hs)
      have hin₂ := Nat.lt_of_lt_of_le hin₃ hother.length_le
      have hin₁ := Nat.lt_of_lt_of_le hin₂ hgs.length_le
      obtain ⟨u, us, rfl, -, htu, hv⟩ := hw.taken (Nat.le_trans (Nat.le_of_lt hin₁) hg.length_le)
      obtain ⟨⟨_, x', b'⟩, w₁, ⟨rfl, hg'⟩, hw₁, hd₁⟩ := ih htu hv (room _ hin₁)
      obtain ⟨gs', w₂, hgs', hw₂, hd₂⟩ := ih' hw₁ (room _ hin₂)
      obtain ⟨other', w₃, hother', hw₃, hd₃⟩ := ih'' hw₂ (room _ hin₃)
      obtain ⟨k', us, rfl, -, hkk, hv⟩ := hw₃.taken (Nat.le_of_add_right_le hs)
      exact ⟨_, _, .branch hg' hgs' hother' (.some hkk), hv,
        fun b => .branch (isKeyword_of_verbatim htu ht) (hd₁ b) (hd₂ b) (hd₃ b)
          (isKeyword_of_verbatim hkk hk)⟩
  | whileLoop hword hg hk ih =>
      intro w hw hs
      have hin := Nat.lt_succ_of_le (Nat.le_of_add_right_le hs)
      obtain ⟨u, w₁, htu, hword', hw₁⟩ := hword.carried hw (Nat.lt_of_lt_of_le hin hg.length_le)
      obtain ⟨⟨_, x', b'⟩, w₂, ⟨rfl, hg'⟩, hw₂, hd⟩ := ih htu hw₁ (room _ hin)
      obtain ⟨k', us, rfl, -, hkk, hv⟩ := hw₂.taken (Nat.le_of_add_right_le hs)
      exact ⟨_, _, .whileLoop hg' (.some hkk), hv,
        fun b => .whileLoop hword' (hd b) (isKeyword_of_verbatim hkk hk)⟩
  | forLoop ht hn hsign ha hmark hb hstep hbl hk hcounter iha ihb ihstep ihbl =>
      intro w hw hs
      have hle₄ := passed hs hcounter.sublist.length_le
      have hin₄ := Nat.lt_succ_of_le hle₄
      have hin₃ := Nat.lt_of_lt_of_le hin₄ hbl.length_le
      have hin₂ := Nat.lt_of_lt_of_le hin₃ hstep.length_le
      have hle₁ := Nat.le_trans (Nat.le_of_lt hin₂) hb.length_le
      have hle₀ := Nat.le_trans (Nat.le_succ_of_le hle₁) ha.length_le
      obtain ⟨u, n', us, rfl, htu, hnn, hv⟩ := hw.takenBoth (Nat.le_succ_of_le hle₀)
      obtain ⟨sign', us, hcons, -, hsigns, hsign'⟩ := hv.taken hle₀
      obtain ⟨-, rfl⟩ := Spot.mk.inj hcons
      obtain ⟨a', w₁, ha', hw₁, hd₁⟩ := iha hsign' (room _ (Nat.lt_succ_of_le hle₁))
      obtain ⟨mark', us, rfl, -, hmarks, hmark'⟩ := hw₁.taken hle₁
      obtain ⟨b', w₂, hb', hw₂, hd₂⟩ := ihb hmark' (room _ hin₂)
      obtain ⟨step', w₃, hstep', hw₃, hd₃⟩ := ihstep hw₂ (room _ hin₃)
      obtain ⟨bl', w₄, hbl', hw₄, hd₄⟩ := ihbl hw₃ (room _ hin₄)
      obtain ⟨k', us, rfl, -, hkk, hk'⟩ := hw₄.taken hle₄
      obtain ⟨w₅, hcounter', hw₅⟩ := hcounter.carried hk' hnn hs
      have hassigns : (sign'.isOperator .assign || sign'.isOperator .equal) = true := by
        simpa [Token.isOperator, hsigns.1.1] using hsign
      exact ⟨_, w₅, .forLoop htu (.written hnn hn) ha' hb' hstep' hbl' (.some hkk), hw₅,
        fun b => .forLoop (isKeyword_of_verbatim htu ht) (hnn.1.1 ▸ hn) hassigns (hd₁ b)
          (isKeyword_of_verbatim hmarks hmark) (hd₂ b) (hd₃ b) (hd₄ false)
          (isKeyword_of_verbatim hkk hk) hcounter'⟩
  -- Links
  | stop hnone =>
      rintro _ left' ⟨⟩ hleft w hw hs
      exact ⟨left', w, hleft, hw, fun b => .stop ((hw.link?_eq hs _ b).trans hnone)⟩
  | binary hlink hy hlinks ih ih' =>
      rintro _ left' ⟨⟩ hleft w hw hs
      have hs₁ := Nat.le_trans hs hlinks.length_le
      have hle := passed hs₁ hy.length_le
      have hlink' := fun b => (hw.link?_taken hle _ b).trans hlink
      obtain ⟨u, us, rfl, -, htu, hv⟩ := hw.taken hle
      obtain ⟨y', w₁, hy', hw₁, hd₁⟩ := ih hv hs₁
      obtain ⟨x', w₂, hx', hw₂, hd₂⟩ := ih' .none (.binary htu hleft hy') hw₁ hs
      exact ⟨x', w₂, hx', hw₂, fun b => .binary (hlink' b) (hd₁ b) (hd₂ b)⟩
  | assign hlink htarget hy hlinks ih ih' =>
      rintro _ left' ⟨⟩ hleft w hw hs
      have hs₁ := Nat.le_trans hs hlinks.length_le
      have hle := passed hs₁ hy.length_le
      have hlink' := fun b => (hw.link?_taken hle _ b).trans hlink
      obtain ⟨u, us, rfl, -, htu, hv⟩ := hw.taken hle
      obtain ⟨y', w₁, hy', hw₁, hd₁⟩ := ih hv hs₁
      obtain ⟨x', w₂, hx', hw₂, hd₂⟩ := ih' .none (.assign htu hleft hy') hw₁ hs
      exact ⟨x', w₂, hx', hw₂,
        fun b => .assign (hlink' b) (isAssignable_eq hleft ▸ htarget) (hd₁ b) (hd₂ b)⟩
  | call hlink hxs hlinks ih ih' =>
      rintro _ left' ⟨⟩ hleft w hw hs
      have hs₁ := passed hs hlinks.length_le
      have hle := Nat.le_trans hs₁ hxs.length_le
      have hlink' := fun b => (hw.link?_taken hle _ b).trans hlink
      obtain ⟨u, us, rfl, -, htu, hv⟩ := hw.taken hle
      obtain ⟨xs', w₁, hxs', hw₁, hd₁⟩ := ih hv hs₁
      obtain ⟨x', w₂, hx', hw₂, hd₂⟩ := ih' .none (.call htu hleft hxs') hw₁ hs
      exact ⟨x', w₂, hx', hw₂, fun b => .call (hlink' b) (hd₁ b) (hd₂ b)⟩
  | index hlink hi hlinks ih ih' =>
      rintro _ left' ⟨⟩ hleft w hw hs
      have hs₁ := Nat.le_trans hs hlinks.length_le
      have hle := passed hs₁ hi.length_le
      have hlink' := fun b => (hw.link?_taken hle _ b).trans hlink
      obtain ⟨u, us, rfl, -, htu, hv⟩ := hw.taken hle
      obtain ⟨i', w₁, hi', hw₁, hd₁⟩ := ih hv hs₁
      obtain ⟨x', w₂, hx', hw₂, hd₂⟩ := ih' (.some htu) (.index htu hleft hi') hw₁ hs
      exact ⟨x', w₂, hx', hw₂, fun b => .index (hlink' b) (hd₁ true) (hd₂ b)⟩
  | subscript ht hi hlinks ih ih' =>
      rintro _ left' ⟨hbracket⟩ hleft w hw hs
      have hs₁ := Nat.le_trans hs hlinks.length_le
      obtain ⟨u, us, rfl, -, htu, hv⟩ := hw.taken (passed hs₁ hi.length_le)
      obtain ⟨i', w₁, hi', hw₁, hd₁⟩ := ih hv hs₁
      obtain ⟨x', w₂, hx', hw₂, hd₂⟩ :=
        ih' (.some hbracket) (.index hbracket hleft hi') hw₁ hs
      exact ⟨x', w₂, hx', hw₂,
        fun b => .subscript (isPunctuation_of_verbatim htu ht) (hd₁ true) (hd₂ b)⟩
  | closeIndex ht hlinks ih =>
      rintro _ left' ⟨hbracket⟩ hleft w hw hs
      obtain ⟨u, us, rfl, -, htu, hv⟩ := hw.taken (passed hs hlinks.length_le)
      obtain ⟨x', w₁, hx', hw₁, hd⟩ := ih .none hleft hv hs
      exact ⟨x', w₁, hx', hw₁, fun b => .closeIndex (isPunctuation_of_verbatim htu ht) (hd b)⟩
  | member hlink hn hlinks ih =>
      rintro _ left' ⟨⟩ hleft w hw hs
      have hle := passed hs hlinks.length_le
      have hlink' := fun b => (hw.link?_taken (Nat.le_succ_of_le hle) _ b).trans hlink
      obtain ⟨u, n', us, rfl, htu, hnn, hv⟩ := hw.takenBoth hle
      obtain ⟨x', w₁, hx', hw₁, hd⟩ := ih .none (.member htu hleft (.written hnn hn)) hv hs
      exact ⟨x', w₁, hx', hw₁, fun b => .member (hlink' b) (hnn.1.1 ▸ hn) (hd b)⟩
  -- Lists of expressions
  | lastExpression _ hnone ih =>
      intro w hw hs
      obtain ⟨x', w₁, hx', hw₁, hd⟩ := ih hw (room _ hs)
      exact ⟨[x'], w₁, .expressions hx' .noExpressions, hw₁, fun b => .lastExpression (hd b)
        ((hw₁.next_eq hs (· == .punctuation .comma)).trans hnone)⟩
  | moreExpressions _ ht hxs ih ih' =>
      intro w hw hs
      have hle := passed hs hxs.length_le
      obtain ⟨x', w₁, hx', hw₁, hd₁⟩ := ih hw (room _ (Nat.lt_succ_of_le hle))
      obtain ⟨u, us, rfl, -, htu, hv⟩ := hw₁.taken hle
      obtain ⟨xs', w₂, hxs', hw₂, hd₂⟩ := ih' hv hs
      exact ⟨x' :: xs', w₂, .expressions hx' hxs', hw₂,
        fun b => .moreExpressions (hd₁ b) (isPunctuation_of_verbatim htu ht) (hd₂ b)⟩
  | noArguments ht =>
      intro w hw hs
      obtain ⟨u, us, rfl, -, htu, hv⟩ := hw.taken hs
      exact ⟨[], _, .noExpressions, hv, fun _ => .noArguments (isPunctuation_of_verbatim htu ht)⟩
  | arguments hnone hxs ht ih =>
      intro w hw hs
      have hin := Nat.lt_succ_of_le hs
      have hnone' := (hw.next_eq (Nat.lt_of_lt_of_le hin hxs.length_le)
        (· == .punctuation _)).trans hnone
      obtain ⟨xs', w₁, hxs', hw₁, hd⟩ := ih hw (room _ hin)
      obtain ⟨u, us, rfl, -, htu, hv⟩ := hw₁.taken hs
      exact ⟨xs', _, hxs', hv,
        fun _ => .arguments hnone' (hd true) (isPunctuation_of_verbatim htu ht)⟩
  -- Parts of conditionals and loops
  | noStep hnone =>
      intro w hw hs
      exact ⟨none, w, .noExpression, hw,
        fun _ => .noStep ((hw.next_eq hs (· == .keyword .kwStep)).trans hnone)⟩
  | step ht hx ih =>
      intro w hw hs
      obtain ⟨u, us, rfl, -, htu, hv⟩ := hw.taken (passed hs hx.length_le)
      obtain ⟨x', w₁, hx', hw₁, hd⟩ := ih hv (room _ hs)
      exact ⟨some x', w₁, .someExpression hx', hw₁,
        fun b => .step (isKeyword_of_verbatim htu ht) (hd b)⟩
  | guarded _ hb ih ih' =>
      intro t' ht w hw hs
      obtain ⟨x', w₁, hx', hw₁, hd₁⟩ := ih hw (room _ (Nat.lt_of_lt_of_le hs hb.length_le))
      obtain ⟨b', w₂, hb', hw₂, hd₂⟩ := ih' hw₁ hs
      exact ⟨⟨t', x', b'⟩, w₂, ⟨rfl, .guarded ht hx' hb'⟩, hw₂,
        fun b => .guarded (hd₁ b) (hd₂ false)⟩
  | noBranches hnone =>
      intro w hw hs
      exact ⟨[], w, .noBranches, hw,
        fun _ => .noBranches ((hw.next_eq hs (· == .keyword .kwElseIf)).trans hnone)⟩
  | branches ht hg hgs ih ih' =>
      intro w hw hs
      have hin := Nat.lt_of_lt_of_le hs hgs.length_le
      obtain ⟨u, us, rfl, -, htu, hv⟩ := hw.taken (Nat.le_trans (Nat.le_of_lt hin) hg.length_le)
      obtain ⟨⟨_, x', b'⟩, w₁, ⟨rfl, hg'⟩, hw₁, hd₁⟩ := ih htu hv hin
      obtain ⟨gs', w₂, hgs', hw₂, hd₂⟩ := ih' hw₁ hs
      exact ⟨⟨_, x', b'⟩ :: gs', w₂, .branches hg' hgs', hw₂,
        fun b => .branches (isKeyword_of_verbatim htu ht) (hd₁ b) (hd₂ b)⟩
  | noAlternative hnone =>
      intro w hw hs
      exact ⟨none, w, .noBlock, hw,
        fun _ => .noAlternative ((hw.next_eq hs (· == .keyword .kwElse)).trans hnone)⟩
  | alternative ht hb ih =>
      intro w hw hs
      obtain ⟨u, us, rfl, -, htu, hv⟩ := hw.taken (passed hs hb.length_le)
      obtain ⟨b', w₁, hb', hw₁, hd⟩ := ih hv hs
      exact ⟨some b', w₁, .someBlock hb', hw₁,
        fun _ => .alternative (isKeyword_of_verbatim htu ht) (hd false)⟩
  -- Statements
  | block hss ih =>
      intro w hw hs
      obtain ⟨ss', w₁, hss', hw₁, hd⟩ := ih hw hs
      have hin := Nat.lt_of_lt_of_le hs hss.length_le
      obtain ⟨u, us, rfl, -, htu, -⟩ := hw.taken (Nat.le_of_lt_succ hin)
      exact ⟨⟨_, ss'⟩, w₁, .block htu (statements_of_forall₂ hss'), hw₁, fun b => .block (hd b)⟩
  | noStatements hends =>
      intro w hw hs
      exact ⟨[], w, .nil, hw, fun b => .noStatements ((hw.blockEnds_eq hs b).trans hends)⟩
  | statements hgoes hx hss ih ih' =>
      intro w hw hs
      have hin := Nat.lt_of_lt_of_le hs hss.length_le
      have hgoes' := fun b => (hw.blockEnds_eq (Nat.lt_of_lt_of_le hin hx.length_le) b).trans hgoes
      obtain ⟨xs, w₁, hxs, hw₁, hd₁⟩ := ih hw hin
      obtain ⟨ys, w₂, hys, hw₂, hd₂⟩ := ih' hw₁ hs
      exact ⟨xs ++ ys, w₂, List.rel_append hxs hys, hw₂,
        fun b => .statements (hgoes' b) (hd₁ b) (hd₂ b)⟩
  | variableList ht hds hstops ih =>
      intro w hw hs
      obtain ⟨u, us, rfl, -, htu, hv⟩ := hw.taken (passed hs hds.length_le)
      obtain ⟨ds', w₁, hds', hw₁, hd⟩ := ih hv hs
      exact ⟨_, w₁, variables_alike htu hds', hw₁,
        fun b => .variableList (htu.1.1 ▸ ht) (hd b) ((hw₁.stops_eq hs b).trans hstops)⟩
  | returnNothing ht hstops =>
      intro w hw hs
      obtain ⟨u, us, rfl, -, htu, hv⟩ := hw.taken (Nat.le_of_add_right_le hs)
      exact ⟨[.ret u none], _, .cons (.ret htu .noExpression) .nil, hv,
        fun b => .returnNothing (isKeyword_of_verbatim htu ht) ((hv.stops_eq hs b).trans hstops)⟩
  | returnValue ht hgoes hx hstops ih =>
      intro w hw hs
      have hin := Nat.lt_of_lt_of_le hs hx.length_le
      obtain ⟨u, us, rfl, -, htu, hv⟩ := hw.taken (Nat.le_of_lt hin)
      obtain ⟨x', w₁, hx', hw₁, hd⟩ := ih hv (room _ hs)
      exact ⟨[.ret u (some x')], w₁, .cons (.ret htu (.someExpression hx')) .nil, hw₁,
        fun b => .returnValue (isKeyword_of_verbatim htu ht) ((hv.stops_eq hin b).trans hgoes)
          (hd b) ((hw₁.stops_eq hs b).trans hstops)⟩
  | value hx hstops ih =>
      intro w hw hs
      obtain ⟨x', w₁, hx', hw₁, hd⟩ := ih hw (room _ hs)
      have hin := Nat.lt_of_lt_of_le hs hx.length_le
      obtain ⟨u, us, rfl, -, htu, -⟩ := hw.taken (Nat.le_of_lt_succ hin)
      exact ⟨[.expression u x'], w₁, .cons (.expression htu hx') .nil, hw₁,
        fun b => .value (hd b) ((hw₁.stops_eq hs b).trans hstops)⟩
  | function hc ht hx ih =>
      intro w hw hs
      obtain ⟨u, us, rfl, -, htu, hv⟩ := hw.taken (passed hs hx.length_le)
      obtain ⟨⟨_, n', ps', b', k'⟩, w₁, ⟨rfl, hx'⟩, hw₁, hd⟩ := ih htu hv hs
      exact ⟨_, w₁, .cons (hc.symm ▸ .function hx') .nil, hw₁,
        fun b => .function hc (isKeyword_of_verbatim htu ht) (hd b)⟩
  | staticFunction hc ht hf hx ih =>
      intro w hw hs
      obtain ⟨u, f', us, rfl, htu, hff, hv⟩ := hw.takenBoth (passed hs hx.length_le)
      obtain ⟨⟨_, n', ps', b', k'⟩, w₁, ⟨rfl, hx'⟩, hw₁, hd⟩ := ih htu hv hs
      exact ⟨_, w₁, .cons (hc.symm ▸ .function hx') .nil, hw₁,
        fun b => .staticFunction hc (isKeyword_of_verbatim htu ht) (isKeyword_of_verbatim hff hf)
          (hd b)⟩
  | classDef hc ht hn hparent hms hk ih =>
      intro w hw hs
      have hle := Nat.le_of_add_right_le hs
      have hin := Nat.lt_of_lt_of_le (Nat.lt_succ_of_le hle) hms.length_le
      obtain ⟨u, n', us, rfl, htu, hnn, hv⟩ :=
        hw.takenBoth (Nat.le_trans (Nat.le_of_lt hin) hparent.sublist.length_le)
      obtain ⟨parent', w₁, hparent', hd₁, hw₁⟩ := hparent.carried hv hin
      obtain ⟨ms', w₂, hms', hw₂, hd₂⟩ := ih hw₁ (room _ (Nat.lt_succ_of_le hle))
      obtain ⟨k', us, rfl, -, hkk, hk'⟩ := hw₂.taken hle
      have hparted := parted_alike hms'
      exact ⟨_, _, .cons (hc.symm ▸ .classDef (.classDefinition htu (.written hnn hn) hparent'
          hparted.1 hparted.2 (.some hkk))) .nil, hk',
        fun b => .classDef hc (isKeyword_of_verbatim htu ht) (hnn.1.1 ▸ hn) hd₁ (hd₂ false)
          (isKeyword_of_verbatim hkk hk)⟩
  -- Parts of declarations
  | declared hn hnone =>
      intro w hw hs
      obtain ⟨u, us, rfl, -, hnu, hv⟩ := hw.taken (Nat.le_of_add_right_le hs)
      exact ⟨(⟨u⟩, none), _, ⟨.written hnu hn, .noExpression⟩, hv, fun _ =>
        .declared (hnu.1.1 ▸ hn) ((hv.next_eq hs (· == .operator .assign)).trans hnone)⟩
  | initialized hn hsign hx ih =>
      intro w hw hs
      obtain ⟨u, sign', us, rfl, hnu, hsigns, hv⟩ := hw.takenBoth (passed hs hx.length_le)
      obtain ⟨x', w₁, hx', hw₁, hd⟩ := ih hv (room _ hs)
      exact ⟨(⟨u⟩, some x'), w₁, ⟨.written hnu hn, .someExpression hx'⟩, hw₁,
        fun b => .initialized (hnu.1.1 ▸ hn) (isOperator_of_verbatim hsigns hsign) (hd b)⟩
  | lastDeclarator _ hnone ih =>
      intro w hw hs
      obtain ⟨d', w₁, hd', hw₁, hd⟩ := ih hw hs
      exact ⟨[d'], w₁, .cons hd' .nil, hw₁, fun b => .lastDeclarator (hd b)
        ((hw₁.next_eq hs (· == .punctuation .comma)).trans hnone)⟩
  | moreDeclarators _ ht hds ih ih' =>
      intro w hw hs
      have hle := passed hs hds.length_le
      obtain ⟨d', w₁, hd', hw₁, hd₁⟩ := ih hw (Nat.succ_le_succ hle)
      obtain ⟨u, us, rfl, -, htu, hv⟩ := hw₁.taken hle
      obtain ⟨ds', w₂, hds', hw₂, hd₂⟩ := ih' hv hs
      exact ⟨d' :: ds', w₂, .cons hd' hds', hw₂,
        fun b => .moreDeclarators (hd₁ b) (isPunctuation_of_verbatim htu ht) (hd₂ b)⟩
  | routine hn hps hb hc ih =>
      intro t' ht w hw hs
      have hin₂ := Nat.lt_of_lt_of_le hs hc.sublist.length_le
      have hin₁ := Nat.lt_of_lt_of_le hin₂ hb.length_le
      obtain ⟨n', us, rfl, -, hnn, hv⟩ :=
        hw.taken (Nat.le_trans (Nat.le_of_lt hin₁) hps.sublist.length_le)
      obtain ⟨ps', w₁, hps', hd₁, hw₁⟩ := hps.carried hv hin₁
      obtain ⟨b', w₂, hb', hw₂, hd₂⟩ := ih hw₁ hin₂
      obtain ⟨k', w₃, hk', hd₃, hw₃⟩ := hc.carried hw₂ hs
      exact ⟨⟨t', ⟨n'⟩, ps', b', k'⟩, w₃, ⟨rfl, .routine ht (.written hnn hn) hps' hb' hk'⟩, hw₃,
        fun b => .routine (hnn.1.1 ▸ hn) hd₁ (hd₂ false) hd₃⟩
  | noMembers hnone =>
      intro w hw hs
      exact ⟨[], w, .nil, hw, fun b => .noMembers ((hw.moreMembers_eq hs b).trans hnone)⟩
  | members _ hms ih ih' =>
      intro w hw hs
      obtain ⟨xs, w₁, hxs, hw₁, hd₁⟩ := ih hw (Nat.lt_of_lt_of_le hs hms.length_le)
      obtain ⟨ys, w₂, hys, hw₂, hd₂⟩ := ih' hw₁ hs
      exact ⟨xs ++ ys, w₂, List.rel_append hxs hys, hw₂, fun b => .members (hd₁ b) (hd₂ b)⟩
  | attributes ht hns hstops =>
      intro w hw hs
      have hle := hns.sublist.length_le
      rw [List.length_tail] at hle
      obtain ⟨u, us, rfl, -, htu, hv⟩ :=
        hw.taken (Nat.le_trans (Nat.le_of_lt (Nat.lt_of_lt_of_le hs hle)) (Nat.sub_le _ _))
      obtain ⟨ns', w₁, hns', hd, hw₁⟩ := hns.carried hv hs
      refine ⟨_, w₁, ?_, hw₁, fun b => .attributes (isKeyword_of_verbatim htu ht) hd
        ((hw₁.stops_eq hs b).trans hstops)⟩
      rw [List.forall₂_map_left_iff, List.forall₂_map_right_iff]
      exact hns'.imp fun _ _ hn => .data ⟨htu, hn⟩
  | method ht hx ih =>
      intro w hw hs
      obtain ⟨u, us, rfl, -, htu, hv⟩ := hw.taken (passed hs hx.length_le)
      obtain ⟨⟨_, n', ps', b', k'⟩, w₁, ⟨rfl, hx'⟩, hw₁, hd⟩ := ih htu hv hs
      exact ⟨_, w₁, .cons (.method hx') .nil, hw₁,
        fun b => .method (isKeyword_of_verbatim htu ht) (hd b)⟩

end Clipper.Grammar
