import Clipper.Proofs.Faults.Nodes
import Clipper.Proofs.Likeness.Concur

/-!
Conditionals and loops that are open where a text ends. An expression leaves one open if
the end comes inside it before its closing word: then the expression itself is the
conditional or loop, or has it as an operand that is read up to the end. What stands in the
block of an open one does not count on its own.
-/

namespace Clipper.Grammar

/-- Something to be read over expressions of a bounded depth. -/
inductive Stretch
  | expression (n : Nat) (c : Context) (precedence : Nat)
  | operand (n : Nat) (c : Context)
  | chain (n : Nat) (c : Context) (precedence : Nat) (bracket : Option Token) (left : Expr)
  | link (n : Nat) (c : Context) (left : Expr) (step : Step)
  /-- Expressions with commas between them. -/
  | items (n : Nat) (c : Context)
  | declarators (n : Nat) (c : Context)
  | plain (n : Nat) (c : Context)

/-- An expression between delimiters. -/
def item (n : Nat) (c : Context) : Attempt Expr :=
  liftM (expressionOrMissing (expression n) c.delimit loosest)

/-- Read from here, it leaves a conditional or a loop open at the end of the text. -/
inductive LeftOpen : Stretch → Reader → Prop
  | operand : LeftOpen (.operand n c) r → LeftOpen (.expression (n + 1) c p) r
  | chain : Yields (operand (expression n) c) r x s → LeftOpen (.chain n c p none x) s →
      LeftOpen (.expression (n + 1) c p) r
  -- Operands
  | here : Yields (operand (expression n) c) r x s → (Node.expression x).unclosed?.isSome = true →
      s.atEnd = true → LeftOpen (.operand n c) r
  | unary : Starter.ofKind? r.current.kind = some (.unary op) →
      LeftOpen (.expression n c Operator.not.precedence) r.advanced → LeftOpen (.operand n c) r
  | group : Starter.ofKind? r.current.kind = some .group →
      LeftOpen (.expression n c.delimit loosest) r.advanced → LeftOpen (.operand n c) r
  | array : Starter.ofKind? r.current.kind = some .array →
      r.advanced.current.isPunctuation .closeBrace = false → LeftOpen (.items n c) r.advanced →
      LeftOpen (.operand n c) r
  -- Chains
  | link : Yields (nextStep c p bracket) r (some step) s → LeftOpen (.link n c left step) s →
      LeftOpen (.chain (n + 1) c p bracket left) r
  | nextLink : Yields (nextStep c p bracket) r (some step) s →
      Yields (attach (expression n) c left step) s (x, b) s' →
      LeftOpen (.chain n c p b x) s' → LeftOpen (.chain (n + 1) c p bracket left) r
  | binary : LeftOpen (.expression n c op.operator.precedence) r.advanced →
      LeftOpen (.link n c left (.link (.binary op))) r
  | assign : LeftOpen (.expression n c loosest) (if left.isAssignable then r.advanced
        else r.advanced.reported (.notAssignable left.token)) →
      LeftOpen (.link n c left (.link .assign)) r
  | call : r.advanced.current.isPunctuation .closeParen = false →
      LeftOpen (.items n c) r.advanced → LeftOpen (.link n c left (.link .call)) r
  | index : LeftOpen (.expression n c.delimit loosest) r.advanced →
      LeftOpen (.link n c left (.link .index)) r
  | subscript : LeftOpen (.expression n c.delimit loosest) r →
      LeftOpen (.link n c left (.subscript bracket)) r
  -- Lists
  | item : LeftOpen (.expression n c.delimit loosest) r → LeftOpen (.items n c) r
  | nextItem : Yields (item n c) r x s → s.current.isPunctuation .comma = true →
      LeftOpen (.items n c) s.advanced → LeftOpen (.items n c) r
  | declarator : r.current.kind = .identifier → r.advanced.current.isOperator .assign = true →
      LeftOpen (.expression n c loosest) r.advanced.advanced → LeftOpen (.declarators n c) r
  | nextDeclarator : Yields (declarator (expression n) c) r d s →
      s.current.isPunctuation .comma = true → LeftOpen (.declarators n c) s.advanced →
      LeftOpen (.declarators n c) r
  -- Statements
  | declaration : isStorage r.current.kind = true → LeftOpen (.declarators n c) r.advanced →
      LeftOpen (.plain n c) r
  | returned : r.current.isKeyword .kwReturn = true → r.advanced.stops c = false →
      LeftOpen (.expression n c loosest) r.advanced → LeftOpen (.plain n c) r
  | statement : opensExpression r.current.kind = true → LeftOpen (.expression n c loosest) r →
      LeftOpen (.plain n c) r

/-- Reading it goes on up to here. -/
def Stretch.Leads : Stretch → Reader → Reader → Prop
  | .expression n c p, r, s => ∃ x, Run (Grammar.expression n c p).run r x s
  | .operand n c, r, s => ∃ x, Run (Grammar.operand (Grammar.expression n) c).run r x s
  | .chain n c p bracket left, r, s => ∃ x, Run (Grammar.chain n c p bracket left).run r x s
  | .link n c left step, r, s => ∃ x, Run (attach (Grammar.expression n) c left step).run r x s
  | .items n c, r, s => ∃ x, Run (listed (item n c)) r x s
  | .declarators n c, r, s => ∃ x, Run (listed (declarator (Grammar.expression n) c)) r x s
  | .plain n c, r, s => ∃ x, Run (Grammar.plain (Grammar.expression n) c) r x s

section

variable {α β : Type} {n p : Nat} {c : Context} {r s : Reader}

theorem steady_item : Steady (item n c).run := steady_argument (lawful_expression n)

theorem run_then {a : Attempt α} {f : α → Attempt β} {e : Except Refusal β}
    (h : Run (a >>= f).run r e s) :
    (∃ x t, Yields a r x t ∧ Run (f x).run t e s) ∨ Refuses a r s := by
  rw [ExceptT.run_bind, run_bind, exists_except] at h
  refine h.imp id fun ⟨t, hx, ht⟩ => ?_
  obtain ⟨_, rfl⟩ := run_pure.mp ht
  exact hx

theorem run_then_yields {a : Attempt α} {f : α → Attempt β} {e : Except Refusal β} {x : α}
    {t : Reader} (h : Run (a >>= f).run r e s) (hx : Yields a r x t) : Run (f x).run t e s := by
  rcases run_then h with ⟨y, t', hy, hrest⟩ | hy
  · obtain ⟨hxy, rfl⟩ := Run.unique (run_ok.mpr hx) (run_ok.mpr hy)
    cases hxy
    exact hrest
  · exact nomatch (Run.unique (run_ok.mpr hx) (run_error.mpr hy)).1

/-- A reading of which the first part comes to the end of the text. -/
theorem atEnd_of_onward (hr : r.Sound) (hend : r.atEnd = true) (h : r.Onward s) :
    s.atEnd = true := by
  cases hs : s.atEnd with
  | true => rfl
  | false => rw [h.open hr hs] at hend; exact hend

theorem leads_expressionOrMissing {x : Expr}
    (hr : r.Sound) (h : Run (expressionOrMissing (expression n) c p) r x s) :
    ∃ t, Stretch.Leads (.expression n c p) r t ∧ t.Sound ∧ t.Onward s := by
  rcases run_expressionOrMissing.mp h with h | ⟨t, ht, _, hs⟩
  · have ho := ((lawful_expression n).steady c p).yields hr h
    exact ⟨s, ⟨_, run_ok.mpr h⟩, ho.sound, .refl ho.sound⟩
  · have ho := ((lawful_expression n).steady c p).refuses hr ht
    refine ⟨t, ⟨_, run_error.mpr ht⟩, ho.sound, ?_⟩
    split at hs
    · exact hs ▸ .refl ho.sound
    · exact hs ▸ Reader.onward_lineSkipped ho.sound

theorem run_operand {e : Expressions} {st : Starter} {x : Except Refusal Expr}
    (hst : Starter.ofKind? r.current.kind = some st) :
    Run (operand e c).run r x s ↔ Run (begun e c st).run r x s := by
  obtain ⟨⟨⟩⟩ | x := x
  · rw [run_error, run_error, refuses_operand]
    simp [hst]
  · rw [run_ok, run_ok, yields_operand]
    simp [hst]

/-- A list is at least as long as its first item, and as the rest of it. -/
theorem leads_listed {item : Attempt α} (hitem : Steady item.run) {out : List α × Bool}
    (hr : r.Sound) (h : Run (listed item) r out s) :
    ∃ e t, Run item.run r e t ∧ t.Sound ∧ t.Onward s ∧
      ∀ x, e = .ok x → t.current.isPunctuation .comma = true →
        ∃ out', Run (listed item) t.advanced out' s := by
  obtain ⟨xs, whole⟩ := out
  cases (run_listed hitem hr).mp h with
  | refused hx =>
      have ho := hitem.refuses hr hx
      exact ⟨_, s, run_error.mpr hx, ho.sound, .refl ho.sound, fun _ h => nomatch h⟩
  | last hx hcomma =>
      have ho := hitem.yields hr hx
      refine ⟨_, s, run_ok.mpr hx, ho.sound, .refl ho.sound, fun _ _ hc => ?_⟩
      simp [hc] at hcomma
  | @more _ t _ x xs _ hx _ hrest =>
      have ho := hitem.yields hr hx
      have ha := Reader.onward_advanced ho.sound
      exact ⟨_, t, run_ok.mpr hx, ho.sound, ha.trans (hrest.onward hitem ha.sound),
        fun _ _ _ => ⟨_, (run_listed hitem ha.sound).mpr hrest⟩⟩

theorem run_plain_return {e : Expressions} {out : List Stmt × Bool}
    (h : r.current.isKeyword .kwReturn = true) :
    Run (plain e c) r out s ↔ Run (single (returned e c)) r out s := by
  have hkind : r.current.kind = .keyword .kwReturn := by simpa [Token.isKeyword] using h
  rw [run_plain, if_neg (by simp [isStorage, hkind]), if_pos h]

theorem run_plain_expression {e : Expressions} {out : List Stmt × Bool}
    (h : opensExpression r.current.kind = true) :
    Run (plain e c) r out s ↔ Run (single (expressionStatement e c)) r out s := by
  have hplain : isStorage r.current.kind = false ∧ r.current.isKeyword .kwReturn = false := by
    generalize hk : r.current.kind = k at h
    cases k with
    | keyword k => cases k <;> simp_all [opensExpression, isStorage, Token.isKeyword,
        Keyword.startsExpression, Keyword.category]
    | _ => simp [isStorage, Token.isKeyword, hk]
  rw [run_plain, if_neg (by simp [hplain.1]), if_neg (by simp [hplain.2]), if_pos h]

theorem atEnd_arguments {close : Punctuation} {e : Except Refusal (List Expr)} (hr : r.Sound)
    (hclose : r.current.isPunctuation close = false)
    (hitems : ∀ t, Stretch.Leads (.items n c) r t → t.atEnd = true)
    (h : Run (arguments (expression n) c close).run r e s) : s.atEnd = true := by
  rcases run_attempt h with ⟨xs, -, h⟩ | ⟨-, h⟩
  · have h := yields_listUpTo.mp h
    rw [if_neg (by simp [hclose])] at h
    obtain ⟨t, ht, hend, -⟩ := h
    have := hitems t ⟨_, ht⟩
    rw [Reader.atEnd_of_punctuation hend] at this
    exact absurd this (by simp)
  · obtain ⟨-, ⟨xs, h⟩ | ⟨xs, t, ht, h⟩⟩ := refuses_listUpTo.mp h
    · exact hitems s ⟨_, h⟩
    · have hsound := (steady_listed steady_item hr ht).sound
      exact atEnd_of_onward hsound (hitems t ⟨_, ht⟩)
        ((steady_expectPunctuation _).refuses hsound h)

theorem atEnd_returnedValue {e : Except Refusal (Option Expr)} (hstops : r.stops c = false)
    (hvalue : ∀ t, Stretch.Leads (.expression n c loosest) r t → t.atEnd = true)
    (h : Run (returnedValue (expression n) c).run r e s) : s.atEnd = true := by
  rcases run_attempt h with ⟨v, -, h⟩ | ⟨-, h⟩
  · rw [yields_returnedValue, if_neg (by simp [hstops])] at h
    obtain ⟨y, hy, -⟩ := h
    exact hvalue s ⟨_, run_ok.mpr hy⟩
  · exact hvalue s ⟨_, run_error.mpr (refuses_returnedValue.mp h).2⟩

end

/-- What is left open at the end of the text is read up to there. -/
theorem LeftOpen.atEnd {w : Stretch} {r s : Reader} (h : LeftOpen w r) (hr : r.Sound)
    (hs : w.Leads r s) : s.atEnd = true := by
  have hchain : ∀ {n c p bracket left t s}, Stretch.Leads (.chain n c p bracket left) t s →
      t.Sound → t.Onward s := fun ⟨_, h⟩ ht =>
    steady_chain (fun m _ => lawful_expression m) _ _ _ ht h
  induction h generalizing s with
  | operand _ ih =>
      obtain ⟨e, he⟩ := hs
      rcases run_then he with ⟨x, t, hx, hrest⟩ | hx
      · have ht := ((steady_operand (lawful_expression _)).yields hr hx).sound
        exact atEnd_of_onward ht (ih hr ⟨_, run_ok.mpr hx⟩) (hchain ⟨e, hrest⟩ ht)
      · exact ih hr ⟨_, run_error.mpr hx⟩
  | chain hx _ ih =>
      obtain ⟨e, he⟩ := hs
      have ht := ((steady_operand (lawful_expression _)).yields hr hx).sound
      exact ih ht ⟨e, run_then_yields he hx⟩
  | here hx _ hend =>
      obtain ⟨e, he⟩ := hs
      exact (Run.unique (run_ok.mpr hx) he).2 ▸ hend
  | unary hstarter _ ih =>
      obtain ⟨e, he⟩ := hs
      have ha := Reader.sound_advanced hr
      rcases run_attempt ((run_operand hstarter).mp he) with ⟨x, -, h⟩ | ⟨-, h⟩
      · obtain ⟨y, hy, -⟩ := run_unary.mp (yields_lift.mp h)
        obtain ⟨t, ht, hsound, ho⟩ := leads_expressionOrMissing ha hy
        exact atEnd_of_onward hsound (ih ha ht) ho
      · exact absurd h refuses_lift
  | group hstarter _ ih =>
      obtain ⟨e, he⟩ := hs
      have ha := Reader.sound_advanced hr
      rcases run_attempt ((run_operand hstarter).mp he) with ⟨x, -, h⟩ | ⟨-, h⟩
      · obtain ⟨t, ht, hclose, -⟩ := yields_group.mp h
        have hend := ih ha ⟨_, run_ok.mpr ht⟩
        rw [Reader.atEnd_of_punctuation hclose] at hend
        exact absurd hend (by simp)
      · rcases refuses_group.mp h with h | ⟨x, t, hx, h⟩
        · exact ih ha ⟨_, run_error.mpr h⟩
        · have ht := ((lawful_expression _).past ha hx).onward.sound
          exact atEnd_of_onward ht (ih ha ⟨_, run_ok.mpr hx⟩)
            ((steady_expectPunctuation _).refuses ht h)
  | array hstarter hclose _ ih =>
      obtain ⟨e, he⟩ := hs
      have ha := Reader.sound_advanced hr
      have harguments := (run_operand hstarter).mp he
      rcases run_attempt harguments with ⟨x, -, h⟩ | ⟨-, h⟩
      · obtain ⟨xs, hxs, -⟩ := yields_array.mp h
        exact atEnd_arguments ha hclose (fun t ht => ih ha ht) (run_ok.mpr hxs)
      · exact atEnd_arguments ha hclose (fun t ht => ih ha ht)
          (run_error.mpr (refuses_array.mp h))
  | link hstep _ ih =>
      obtain ⟨e, he⟩ := hs
      rw [Grammar.chain] at he
      have ht := ((steady_nextStep _ _).yields hr hstep).sound
      have hlink := run_then_yields he hstep
      rcases run_then hlink with ⟨⟨x, b⟩, t, hx, hrest⟩ | hx
      · have ho := ((steady_attach (lawful_expression _) _ _).yields ht hx).sound
        exact atEnd_of_onward ho (ih ht ⟨_, run_ok.mpr hx⟩) (hchain ⟨e, hrest⟩ ho)
      · exact ih ht ⟨_, run_error.mpr hx⟩
  | nextLink hstep hx _ ih =>
      obtain ⟨e, he⟩ := hs
      rw [Grammar.chain] at he
      have ht := ((steady_nextStep _ _).yields hr hstep).sound
      have ho := ((steady_attach (lawful_expression _) _ _).yields ht hx).sound
      have hlink := run_then_yields he hstep
      have hrest := run_then_yields hlink hx
      exact ih ho ⟨e, hrest⟩
  | binary _ ih =>
      obtain ⟨e, he⟩ := hs
      have ha := Reader.sound_advanced hr
      rcases run_attempt he with ⟨x, -, h⟩ | ⟨-, h⟩
      · obtain ⟨y, hy, -⟩ := yields_attach_binary.mp h
        obtain ⟨t, ht, hsound, ho⟩ := leads_expressionOrMissing ha hy
        exact atEnd_of_onward hsound (ih ha ht) ho
      · simp [refuses_attach] at h
  | @assign n c left r _ ih =>
      obtain ⟨e, he⟩ := hs
      have ha : (if left.isAssignable then r.advanced
          else r.advanced.reported (.notAssignable left.token)).Sound := by
        split
        · exact Reader.sound_advanced hr
        · exact (Reader.onward_reported (Reader.sound_advanced hr) _ rfl).sound
      rcases run_attempt he with ⟨x, -, h⟩ | ⟨-, h⟩
      · obtain ⟨y, hy, -⟩ := yields_attach_assign.mp h
        obtain ⟨t, ht, hsound, ho⟩ := leads_expressionOrMissing ha hy
        exact atEnd_of_onward hsound (ih ha ht) ho
      · simp [refuses_attach] at h
  | call hclose _ ih =>
      obtain ⟨e, he⟩ := hs
      have ha := Reader.sound_advanced hr
      rcases run_attempt he with ⟨x, -, h⟩ | ⟨-, h⟩
      · obtain ⟨xs, hxs, -⟩ := yields_attach_call.mp h
        exact atEnd_arguments ha hclose (fun t ht => ih ha ht) (run_ok.mpr hxs)
      · rcases refuses_attach.mp h with ⟨-, hxs⟩ | ⟨hmember, -⟩
        · exact atEnd_arguments ha hclose (fun t ht => ih ha ht) (run_error.mpr hxs)
        · cases hmember
  | index _ ih =>
      obtain ⟨e, he⟩ := hs
      have ha := Reader.sound_advanced hr
      rcases run_attempt he with ⟨x, -, h⟩ | ⟨-, h⟩
      · obtain ⟨y, hy, -⟩ := run_subscript.mp (yields_attach_index.mp h)
        obtain ⟨t, ht, hsound, ho⟩ := leads_expressionOrMissing ha hy
        exact atEnd_of_onward hsound (ih ha ht) ho
      · simp [refuses_attach] at h
  | subscript _ ih =>
      obtain ⟨e, he⟩ := hs
      rcases run_attempt he with ⟨x, -, h⟩ | ⟨-, h⟩
      · obtain ⟨y, hy, -⟩ := run_subscript.mp (yields_attach_subscript.mp h)
        obtain ⟨t, ht, hsound, ho⟩ := leads_expressionOrMissing hr hy
        exact atEnd_of_onward hsound (ih hr ht) ho
      · simp [refuses_attach] at h
  | item _ ih =>
      obtain ⟨out, hout⟩ := hs
      obtain ⟨e, t, hx, ht, ho, -⟩ := leads_listed steady_item hr hout
      refine atEnd_of_onward ht ?_ ho
      rcases run_attempt hx with ⟨y, -, h⟩ | ⟨-, h⟩
      · obtain ⟨u, hu, hsound, ho⟩ := leads_expressionOrMissing hr (yields_lift.mp h)
        exact atEnd_of_onward hsound (ih hr hu) ho
      · exact absurd h refuses_lift
  | nextItem hx hcomma _ ih =>
      obtain ⟨out, hout⟩ := hs
      obtain ⟨e, t, he, ht, -, hrest⟩ := leads_listed steady_item hr hout
      obtain ⟨rfl, rfl⟩ := Run.unique (run_ok.mpr hx) he
      exact ih (Reader.sound_advanced ht) (hrest _ rfl hcomma)
  | @declarator n c r hname hassign _ ih =>
      obtain ⟨out, hout⟩ := hs
      obtain ⟨e, t, hx, ht, ho, -⟩ := leads_listed (steady_declarator (lawful_expression _)) hr hout
      refine atEnd_of_onward ht ?_ ho
      have ha := Reader.sound_advanced (Reader.sound_advanced hr)
      rcases run_attempt hx with ⟨d, -, h⟩ | ⟨-, h⟩
      · have h := (yields_declarator.mp h).2
        rw [if_pos hassign] at h
        obtain ⟨y, hy, -⟩ := h
        obtain ⟨t, ht, hsound, ho⟩ := leads_expressionOrMissing ha hy
        exact atEnd_of_onward hsound (ih ha ht) ho
      · exact absurd hname (refuses_declarator.mp h).1
  | nextDeclarator hx hcomma _ ih =>
      obtain ⟨out, hout⟩ := hs
      obtain ⟨e, t, he, ht, -, hrest⟩ :=
        leads_listed (steady_declarator (lawful_expression _)) hr hout
      obtain ⟨rfl, rfl⟩ := Run.unique (run_ok.mpr hx) he
      exact ih (Reader.sound_advanced ht) (hrest _ rfl hcomma)
  | declaration hstorage _ ih =>
      obtain ⟨out, hout⟩ := hs
      rw [run_plain, if_pos hstorage] at hout
      obtain ⟨ds, whole, t, ht, h⟩ := run_variableList.mp hout
      have ha := Reader.sound_advanced hr
      have hend := ih ha ⟨_, ht⟩
      have hsound := (steady_listed (steady_declarator (lawful_expression _)) ha ht).sound
      split at h
      · obtain ⟨b, hb, -⟩ := h
        exact atEnd_of_onward hsound hend (steady_succeeds steady_endOfStatement hsound hb)
      · exact h.2 ▸ hend
  | returned hreturn hstops _ ih =>
      obtain ⟨out, hout⟩ := hs
      have ha := Reader.sound_advanced hr
      have hvalue {e t} := atEnd_returnedValue (e := e) (s := t) hstops fun t ht => ih ha ht
      rcases run_single.mp ((run_plain_return hreturn).mp hout) with ⟨x, h, -⟩ | ⟨h, -⟩
      · obtain ⟨v, hv, -⟩ := yields_returned.mp h
        exact hvalue (run_ok.mpr hv)
      · rcases refuses_returned.mp h with h | ⟨v, t, hv, h⟩
        · exact hvalue (run_error.mpr h)
        · have hsound := ((steady_returnedValue (lawful_expression _)).yields ha hv).sound
          exact atEnd_of_onward hsound (hvalue (run_ok.mpr hv))
            (steady_endOfStatement.refuses hsound h)
  | statement hopens _ ih =>
      obtain ⟨out, hout⟩ := hs
      rcases run_single.mp ((run_plain_expression hopens).mp hout) with ⟨x, h, -⟩ | ⟨h, -⟩
      · obtain ⟨y, hy, -⟩ := yields_expressionStatement.mp h
        exact ih hr ⟨_, run_ok.mpr hy⟩
      · rcases refuses_expressionStatement.mp h with h | ⟨y, t, hy, h⟩
        · exact ih hr ⟨_, run_error.mpr h⟩
        · have hsound := ((lawful_expression _).past hr hy).onward.sound
          exact atEnd_of_onward hsound (ih hr ⟨_, run_ok.mpr hy⟩)
            (steady_endOfStatement.refuses hsound h)

end Clipper.Grammar
