import Clipper.Proofs.Depth.Row

/-!
Expressions on a line whose brackets are closed on it stay on the line, whatever is wrong with
them. So a statement outside all expressions, however deep, takes its line and nothing below
it, and leaves the reader as a single name would.
-/

namespace Clipper

open Grammar

namespace Row

variable {R : Row} {e : Expressions} {c : Context} {d n p : Nat} {r r' : Reader}

/-- An expression ends on the line, and what has been read has its token there. -/
structure Ends (R : Row) (d : Nat) (r : Reader) (o : Except Refusal Expr) (r' : Reader) :
    Prop where
  keeps : R.Keeps d r r'
  token : ∀ x, o = .ok x → x.token ∈ R.tokens

/-- Expressions that begin on the line end on it, also those that cannot be read. Inside
brackets, and only there, they know that they are. -/
def Confines (R : Row) (e : Expressions) : Prop :=
  ∀ ⦃c p d r o r'⦄, c.delimited = decide (0 < d) → R.Before d r → Run (e c p).run r o r' →
    R.Ends d r o r'

theorem Ends.refused (h : R.Keeps d r r') : R.Ends d r (.error .reported) r' :=
  ⟨h, fun _ h => nomatch h⟩

theorem Ends.yielded {x : Expr} (h : R.Keeps d r r') (hx : x.token ∈ R.tokens) :
    R.Ends d r (.ok x) r' :=
  ⟨h, fun _ h => Except.ok.inj h ▸ hx⟩

theorem Ends.after {s : Reader} {o : Except Refusal Expr} {d' : Nat} (h : R.Keeps d' r s)
    (h' : R.Ends d s o r') : R.Ends d r o r' :=
  ⟨h.trans h'.keeps, h'.token⟩

/-! ### Tokens -/

theorem keeps_expectPunctuation {close : Punctuation} {o : Except Refusal Unit}
    (hclose : close.bearing = .closing) (h : R.Within (d + 1) r)
    (hrun : Run (expectPunctuation close).run r o r') : R.Keeps d r r' := by
  have hbefore := h.before
  rcases run_attempt hrun with ⟨_, rfl, hy⟩ | ⟨rfl, hf⟩
  · obtain ⟨hcurrent, rfl⟩ := yields_expectPunctuation.mp hy
    have hbearing := Token.bearing?_punctuation hcurrent
    rw [hclose] at hbearing
    exact .advanced hbefore hbearing
  · obtain ⟨-, rfl⟩ := refuses_expectPunctuation.mp hf
    exact (Keeps.reported (f := .expected _ r.current) h hbefore.mem rfl rfl).mono (Nat.le_succ d)

theorem keeps_name {what : String} {o : Except Refusal Name} (h : R.Before d r)
    (hrun : Run (name what).run r o r') : R.Keeps d r r' := by
  rcases run_attempt hrun with ⟨_, rfl, hy⟩ | ⟨rfl, hf⟩
  · obtain ⟨hk, -, rfl⟩ := yields_name.mp hy
    exact .advanced h (by rw [Token.bearing?, hk])
  · obtain ⟨-, rfl⟩ := refuses_name.mp hf
    exact .reported (f := .expected what r.current) h.within h.mem rfl rfl

/-! ### Lists -/

namespace Confines

variable (he : R.Confines e)

include he

theorem expressionOrMissing {x : Expr} (hc : c.delimited = decide (0 < d)) (h : R.Before d r)
    (hline : r.line = R.line) (hrun : Run (expressionOrMissing e c p) r x r') :
    R.Keeps d r r' ∧ x.token ∈ R.tokens := by
  rcases run_expressionOrMissing.mp hrun with hx | ⟨s, hs, rfl, hr'⟩
  · have hends := he hc h (run_ok.mpr hx)
    exact ⟨hends.keeps, hends.token x rfl⟩
  · have hkeeps := (he hc h (run_error.mpr hs)).keeps
    refine ⟨?_, h.mem⟩
    split at hr'
    · exact hr' ▸ hkeeps
    · -- Outside brackets the rest of the line goes with it.
      rename_i hopen
      obtain rfl : d = 0 := by simp_all
      obtain ⟨hbehind, htally⟩ :=
        behind_lineSkipped (c := c) hkeeps.within (hkeeps.line hline)
      exact hr' ▸ hkeeps.trans ⟨hbehind.within, htally, fun _ => hbehind.line⟩

theorem lists {xs : List Expr} {whole : Bool} (h : R.Before (d + 1) r) (hline : r.line = R.line)
    (hxs : Lists (liftM (Grammar.expressionOrMissing e c.delimit loosest)) r xs whole r') :
    R.Keeps (d + 1) r r' := by
  have hc : c.delimit.delimited = decide (0 < d + 1) := by simp [Context.delimit]
  induction hxs with
  | refused hx => exact absurd hx refuses_lift
  | last hx _ => exact (he.expressionOrMissing hc h hline (yields_lift.mp hx)).1
  | more hx hcomma _ ih =>
      have hkeeps := (he.expressionOrMissing hc h hline (yields_lift.mp hx)).1
      have hbefore := hkeeps.within.before
      have hsign := Token.bearing?_punctuation hcomma
      have hrest := ih (hbefore.advanced_sign hsign) hbefore.line_advanced
      exact hkeeps.trans ((Keeps.advanced hbefore hsign).trans hrest)

theorem arguments (hlawful : e.Lawful) {close : Punctuation} {o : Except Refusal (List Expr)}
    (hclose : close.bearing = .closing) (h : R.Before (d + 1) r) (hline : r.line = R.line)
    (hrun : Run (arguments e c close).run r o r') : R.Keeps d r r' := by
  have hlists : ∀ {xs whole s}, Run (listed (liftM (Grammar.expressionOrMissing e c.delimit
      loosest))) r (xs, whole) s → R.Keeps (d + 1) r s := fun hs =>
    he.lists h hline ((run_listed (steady_argument hlawful) h.sound).mp hs)
  rcases run_attempt hrun with ⟨xs, rfl, hy⟩ | ⟨rfl, hf⟩
  · rw [Grammar.arguments, yields_listUpTo] at hy
    split at hy
    · rename_i hcurrent
      have hbearing := Token.bearing?_punctuation hcurrent
      rw [hclose] at hbearing
      exact hy.2 ▸ .advanced h hbearing
    · obtain ⟨s, hs, hcurrent, rfl⟩ := hy
      have hkeeps := hlists hs
      have hbearing := Token.bearing?_punctuation hcurrent
      rw [hclose] at hbearing
      exact hkeeps.trans (.advanced hkeeps.within.before hbearing)
  · obtain ⟨-, ⟨xs, hs⟩ | ⟨xs, s, hs, hexpected⟩⟩ := refuses_listUpTo.mp hf
    · exact (hlists hs).mono (Nat.le_succ d)
    · have hkeeps := hlists hs
      exact hkeeps.trans (keeps_expectPunctuation hclose hkeeps.within (run_error.mpr hexpected))

/-! ### Operands -/

theorem begun (hlawful : e.Lawful) {st : Starter} {o : Except Refusal Expr}
    (hc : c.delimited = decide (0 < d)) (h : R.Before d r)
    (hst : Starter.ofKind? r.current.kind = some st) (hrun : Run (begun e c st).run r o r') :
    R.Ends d r o r' := by
  obtain ⟨bearing, hbearing⟩ := h.bearing
  have hsort := Starter.bearing?_eq hst hbearing
  have hadvanced := Keeps.advanced h hbearing
  have hline := h.line_advanced
  rcases run_attempt hrun with ⟨x, rfl, hy⟩ | ⟨rfl, hf⟩
  · cases st with
    | boolean | nil | branch | whileLoop | forLoop => cases hsort
    | name | date =>
        simp only [Grammar.begun, yields_bind, yields_lift, run_advance, yields_pure] at hy
        obtain ⟨_, _, ⟨rfl, rfl⟩, rfl, rfl⟩ := hy
        exact .yielded (hadvanced.mono (by cases hsort; exact Nat.le_refl d)) h.mem
    | integer =>
        cases hsort
        obtain ⟨-, rfl, rfl⟩ := yields_integer.mp hy
        exact .yielded hadvanced h.mem
    | float =>
        cases hsort
        obtain ⟨_, -, rfl, rfl⟩ := yields_float.mp hy
        exact .yielded hadvanced h.mem
    | string =>
        cases hsort
        obtain ⟨rfl, rfl⟩ := run_string.mp (yields_lift.mp hy)
        exact .yielded hadvanced h.mem
    | unary op =>
        cases hsort
        obtain ⟨y, hx, rfl⟩ := run_unary.mp (yields_lift.mp hy)
        have hx := he.expressionOrMissing hc (h.advanced_sign hbearing) hline hx
        exact .yielded (hadvanced.trans hx.1) h.mem
    | group =>
        cases hsort
        obtain ⟨s, hx, hclose, rfl⟩ := yields_group.mp hy
        have hends := he (by simp [Context.delimit]) hadvanced.within.before (run_ok.mpr hx)
        have hclosing :=
          Keeps.advanced hends.keeps.within.before (Token.bearing?_punctuation hclose)
        exact .yielded (hadvanced.trans (hends.keeps.trans hclosing)) (hends.token x rfl)
    | array =>
        cases hsort
        obtain ⟨xs, hxs, rfl⟩ := yields_array.mp hy
        have hxs := he.arguments hlawful rfl hadvanced.within.before hline (run_ok.mpr hxs)
        exact .yielded (hadvanced.trans hxs) h.mem
    | ownMember =>
        cases hsort
        obtain ⟨n, hn, rfl⟩ := yields_ownMember.mp hy
        have hn := keeps_name (h.advanced_sign hbearing) (run_ok.mpr hn)
        exact .yielded (hadvanced.trans hn) h.mem
  · cases st with
    | boolean | nil | branch | whileLoop | forLoop => cases hsort
    | name | date | string | unary => simp [Grammar.begun] at hf
    | integer =>
        cases hsort
        obtain ⟨-, rfl⟩ := refuses_integer.mp hf
        exact .refused (hadvanced.trans
          (.reported (f := .integerTooLarge r.current) hadvanced.within h.mem rfl rfl))
    | float =>
        cases hsort
        obtain ⟨-, rfl⟩ := refuses_float.mp hf
        exact .refused (hadvanced.trans
          (.reported (f := .malformedNumber r.current) hadvanced.within h.mem rfl rfl))
    | group =>
        cases hsort
        have hbefore := hadvanced.within.before
        rcases refuses_group.mp hf with hx | ⟨x, s, hx, hexpected⟩
        · have hends := he (by simp [Context.delimit]) hbefore (run_error.mpr hx)
          exact .refused (hadvanced.trans (hends.keeps.mono (Nat.le_succ d)))
        · have hends := he (by simp [Context.delimit]) hbefore (run_ok.mpr hx)
          have hclosing := keeps_expectPunctuation rfl hends.keeps.within (run_error.mpr hexpected)
          exact .refused (hadvanced.trans (hends.keeps.trans hclosing))
    | array =>
        cases hsort
        have hxs := he.arguments hlawful rfl hadvanced.within.before hline
          (run_error.mpr (refuses_array.mp hf))
        exact .refused (hadvanced.trans hxs)
    | ownMember =>
        cases hsort
        have hn := keeps_name (h.advanced_sign hbearing) (run_error.mpr (refuses_ownMember.mp hf))
        exact .refused (hadvanced.trans hn)

theorem operand (hlawful : e.Lawful) {o : Except Refusal Expr} (hc : c.delimited = decide (0 < d))
    (h : R.Before d r) (hrun : Run (operand e c).run r o r') : R.Ends d r o r' := by
  rcases run_attempt hrun with ⟨x, rfl, hy⟩ | ⟨rfl, hf⟩
  · obtain ⟨st, hst, hy⟩ := yields_operand.mp hy
    exact he.begun hlawful hc h hst (run_ok.mpr hy)
  · rcases refuses_operand.mp hf with ⟨st, hst, hf⟩ | ⟨-, rfl⟩
    · exact he.begun hlawful hc h hst (run_error.mpr hf)
    · exact .refused (.reported (f := .notAnExpression r.current) h.within h.mem rfl rfl)

/-! ### Chains -/

theorem subscript {bracket : Token} {left y : Expr} {b : Option Token} (h : R.Before (d + 1) r)
    (hline : r.line = R.line) (hrun : Run (subscript e c bracket left) r (y, b) r') :
    R.Keeps (d + 1) r r' ∧ y.token = bracket ∧ b = some bracket := by
  obtain ⟨i, hi, heq⟩ := run_subscript.mp hrun
  obtain ⟨rfl, rfl⟩ := Prod.mk.inj heq
  exact ⟨(he.expressionOrMissing (by simp [Context.delimit]) h hline hi).1, rfl, rfl⟩

end Confines

/-- While a list of subscripts is open its bracket is. -/
def brackets : Option Token → Nat
  | none => 0
  | some _ => 1

/-- In front of the next step of a chain. -/
inductive Steps (R : Row) (d : Nat) (r : Reader) : Option Step → Reader → Prop
  | done {s : Reader} : R.Keeps d r s → Steps R d r none s
  | subscript {s : Reader} {t : Token} : t ∈ R.tokens → R.Keeps (d + 1) r s →
      R.Before (d + 1) s → s.line = R.line → Steps R d r (some (.subscript t)) s
  | link {s : Reader} {l : Link} : R.Keeps d r s → R.Before d s →
      s.current.bearing? = some l.bearing → Steps R d r (some (.link l)) s

/-- A link is found on the line only. -/
theorem steps_link {s : Reader} (hc : c.delimited = decide (0 < d)) (h : R.Keeps d r s) :
    R.Steps d r ((link? c p s).map .link) s := by
  cases hl : link? c p s with
  | none => exact .done h
  | some l =>
      rcases h.within.cases with hbefore | ⟨rfl, hbehind⟩
      · refine .link h hbefore (Link.bearing?_eq ?_)
        unfold Grammar.link? at hl
        cases hk : Link.ofKind? s.current.kind with
        | none => simp [hk] at hl
        | some l' =>
            rw [hk] at hl
            dsimp only at hl
            split at hl
            · rw [Option.some.inj hl]
            · cases hl
      · rw [hbehind.link? (by simpa using hc)] at hl
        cases hl

theorem steps_nextStep {bracket : Option Token} {step : Option Step}
    (hc : c.delimited = decide (0 < d)) (hbracket : ∀ t ∈ bracket, t ∈ R.tokens)
    (h : R.Within (d + brackets bracket) r) (hrun : Yields (nextStep c p bracket) r step r') :
    R.Steps d r step r' := by
  cases bracket with
  | none =>
      obtain ⟨rfl, rfl⟩ := yields_nextStep_none.mp hrun
      exact steps_link hc (.refl h)
  | some t =>
      have hbefore := Within.before h
      rw [yields_nextStep_some] at hrun
      split at hrun
      · rename_i hcomma
        obtain ⟨rfl, rfl⟩ := hrun
        have hsign := Token.bearing?_punctuation hcomma
        exact .subscript (hbracket t rfl) (.advanced hbefore hsign) (hbefore.advanced_sign hsign)
          hbefore.line_advanced
      · obtain ⟨hclose, rfl, rfl⟩ := hrun
        exact steps_link hc (.advanced hbefore (Token.bearing?_punctuation hclose))

theorem keeps_nextStep {bracket : Option Token} (h : R.Within (d + brackets bracket) r)
    (hrun : Refuses (nextStep c p bracket) r r') : R.Keeps d r r' := by
  cases bracket with
  | none => exact absurd hrun refuses_nextStep_none
  | some t => exact keeps_expectPunctuation rfl h (run_error.mpr (refuses_nextStep_some.mp hrun).2)

/-- What has been read goes on in the next round. -/
structure Rounds (R : Row) (d : Nat) (r : Reader) (y : Expr) (b : Option Token) (r' : Reader) :
    Prop where
  keeps : R.Keeps (d + brackets b) r r'
  token : y.token ∈ R.tokens
  bracket : ∀ t ∈ b, t ∈ R.tokens

theorem Rounds.closed {y : Expr} (h : R.Keeps d r r') (hy : y.token ∈ R.tokens) :
    R.Rounds d r y none r' := ⟨h, hy, fun _ h => nomatch h⟩

namespace Confines

variable (he : R.Confines e) {s : Reader} {left y : Expr} {step : Step} {b : Option Token}

include he

theorem rounds_subscript {t : Token} (ht : t ∈ R.tokens) (h : R.Before (d + 1) r)
    (hline : r.line = R.line) (hrun : Run (Grammar.subscript e c t left) r (y, b) r') :
    R.Rounds d r y b r' := by
  obtain ⟨hkeeps, hy, rfl⟩ := he.subscript h hline hrun
  exact ⟨hkeeps, hy ▸ ht, fun u hu => Option.some.inj hu ▸ ht⟩

/-- What the link takes ends on the line. -/
theorem rounds_attach (hlawful : e.Lawful) (hc : c.delimited = decide (0 < d))
    (hleft : left.token ∈ R.tokens) (h : R.Steps d r (some step) s)
    (hrun : Yields (attach e c left step) s (y, b) r') : R.Rounds d r y b r' := by
  cases h with
  | subscript ht hkeeps hbefore hline =>
      have hrounds := he.rounds_subscript ht hbefore hline (yields_attach_subscript.mp hrun)
      exact ⟨hkeeps.trans hrounds.keeps, hrounds.token, hrounds.bracket⟩
  | @link _ l hkeeps hbefore hbearing =>
      have hadvanced := hkeeps.trans (Keeps.advanced hbefore hbearing)
      have hline := hbefore.line_advanced
      cases l with
      | binary op =>
          obtain ⟨z, hz, heq⟩ := yields_attach_binary.mp hrun
          obtain ⟨rfl, rfl⟩ := Prod.mk.inj heq
          have hz := he.expressionOrMissing hc (hbefore.advanced_sign hbearing) hline hz
          exact .closed (hadvanced.trans hz.1) hbefore.mem
      | assign =>
          obtain ⟨z, hz, heq⟩ := yields_attach_assign.mp hrun
          obtain ⟨rfl, rfl⟩ := Prod.mk.inj heq
          have hsign := hbefore.advanced_sign hbearing
          split at hz
          · have hz := he.expressionOrMissing hc hsign hline hz
            exact .closed (hadvanced.trans hz.1) hbefore.mem
          · have hreported := Keeps.reported (f := .notAssignable left.token) hsign.within hleft
              rfl rfl
            have hz := he.expressionOrMissing hc (hsign.reported rfl) (by simpa using hline) hz
            exact .closed (hadvanced.trans (hreported.trans hz.1)) hbefore.mem
      | call =>
          obtain ⟨xs, hxs, heq⟩ := yields_attach_call.mp hrun
          obtain ⟨rfl, rfl⟩ := Prod.mk.inj heq
          have hxs := he.arguments hlawful rfl hadvanced.within.before hline (run_ok.mpr hxs)
          exact .closed (hadvanced.trans hxs) hbefore.mem
      | index =>
          have hrounds := he.rounds_subscript hbefore.mem hadvanced.within.before hline
            (yields_attach_index.mp hrun)
          exact ⟨hadvanced.trans hrounds.keeps, hrounds.token, hrounds.bracket⟩
      | member =>
          obtain ⟨n, hn, heq⟩ := yields_attach_member.mp hrun
          obtain ⟨rfl, rfl⟩ := Prod.mk.inj heq
          have hn := keeps_name (hbefore.advanced_sign hbearing) (run_ok.mpr hn)
          exact .closed (hadvanced.trans hn) hbefore.mem

theorem keeps_attach (hlawful : e.Lawful) (h : R.Steps d r (some step) s)
    (hrun : Refuses (attach e c left step) s r') : R.Keeps d r r' := by
  rcases refuses_attach.mp hrun with ⟨rfl, hxs⟩ | ⟨rfl, hn⟩
  · cases h with
    | link hkeeps hbefore hbearing =>
        have hadvanced := hkeeps.trans (Keeps.advanced hbefore hbearing)
        exact hadvanced.trans (he.arguments hlawful rfl hadvanced.within.before
          hbefore.line_advanced (run_error.mpr hxs))
  · cases h with
    | link hkeeps hbefore hbearing =>
        have hadvanced := hkeeps.trans (Keeps.advanced hbefore hbearing)
        exact hadvanced.trans
          (keeps_name (hbefore.advanced_sign hbearing) (run_error.mpr hn))

end Confines

/-- In front of a step that is one too many. -/
theorem Steps.silenced {step : Step} {s : Reader} (h : R.Steps d r (some step) s) :
    R.Keeps d r s.silenced := by
  cases h with
  | subscript _ hkeeps hbefore _ =>
      exact (hkeeps.trans (.silenced hbefore)).mono (Nat.le_succ d)
  | link hkeeps hbefore _ => exact hkeeps.trans (.silenced hbefore)

theorem ends_chain {bracket : Option Token} {left : Expr} {o : Except Refusal Expr}
    (he : ∀ m < n, R.Confines (expression m)) (hc : c.delimited = decide (0 < d))
    (hleft : left.token ∈ R.tokens) (hbracket : ∀ t ∈ bracket, t ∈ R.tokens)
    (h : R.Within (d + brackets bracket) r) (hrun : Run (chain n c p bracket left).run r o r') :
    R.Ends d r o r' := by
  induction n generalizing bracket left r with
  | zero =>
      rcases run_attempt hrun with ⟨x, rfl, hy⟩ | ⟨rfl, hf⟩
      · rcases yields_chain.mp hy with ⟨hstep, rfl⟩ | ⟨_, _, _, _, _, _, _, hn, _⟩
        · cases steps_nextStep hc hbracket h hstep with
          | done hkeeps => exact .yielded hkeeps hleft
        · cases hn
      · rcases refuses_chain.mp hf with hstep | ⟨step, s, hstep, ⟨-, rfl⟩ | ⟨_, hn, _⟩⟩
        · exact .refused (keeps_nextStep h hstep)
        · exact .refused (steps_nextStep hc hbracket h hstep).silenced
        · cases hn
  | succ n ih =>
      have hn := he n (Nat.lt_succ_self n)
      have hlawful := lawful_expression n
      have hlower : ∀ m < n, R.Confines (expression m) := fun m hm => he m (Nat.lt_succ_of_lt hm)
      rcases run_attempt hrun with ⟨x, rfl, hy⟩ | ⟨rfl, hf⟩
      · rcases yields_chain.mp hy with ⟨hstep, rfl⟩ | ⟨step, s, m, y, b, s', hstep, hm, hy, hx⟩
        · cases steps_nextStep hc hbracket h hstep with
          | done hkeeps => exact .yielded hkeeps hleft
        · obtain rfl := Nat.succ.inj hm
          have hrounds := hn.rounds_attach hlawful hc hleft
            (steps_nextStep hc hbracket h hstep) hy
          exact .after hrounds.keeps
            (ih hlower hrounds.token hrounds.bracket hrounds.keeps.within (run_ok.mpr hx))
      · rcases refuses_chain.mp hf with hstep | ⟨step, s, hstep, ⟨hz, -⟩ | ⟨m, hm, hf⟩⟩
        · exact .refused (keeps_nextStep h hstep)
        · cases hz
        · obtain rfl := Nat.succ.inj hm
          have hsteps := steps_nextStep hc hbracket h hstep
          rcases hf with hf | ⟨y, b, s', hy, hf⟩
          · exact .refused (hn.keeps_attach hlawful hsteps hf)
          · have hrounds := hn.rounds_attach hlawful hc hleft hsteps hy
            exact .after hrounds.keeps
              (ih hlower hrounds.token hrounds.bracket hrounds.keeps.within (run_error.mpr hf))

/-- Expressions of any depth stay on the line. -/
theorem confines_expression (n : Nat) : R.Confines (expression n) := by
  induction n using Nat.strongRecOn with
  | ind n ih =>
      intro c p d r o r' hc h hrun
      cases n with
      | zero =>
          rcases run_attempt hrun with ⟨x, rfl, hy⟩ | ⟨rfl, hf⟩
          · exact absurd hy yields_expression_zero
          · exact .refused (refuses_expression_zero.mp hf ▸ .silenced h)
      | succ n =>
          have hn := ih n (Nat.lt_succ_self n)
          have hlawful := lawful_expression n
          have hchain : ∀ {left s o}, Yields (operand (expression n) c) r left s →
              Run (chain n c p none left).run s o r' → R.Ends d r o r' := by
            intro left s o hleft hx
            have hends := hn.operand hlawful hc h (run_ok.mpr hleft)
            exact .after hends.keeps (ends_chain (fun m hm => ih m (Nat.lt_succ_of_lt hm)) hc
              (hends.token left rfl) (fun _ h => absurd h (Option.not_mem_none _))
              hends.keeps.within hx)
          rcases run_attempt hrun with ⟨x, rfl, hy⟩ | ⟨rfl, hf⟩
          · obtain ⟨left, s, hleft, hx⟩ := yields_expression_succ.mp hy
            exact hchain hleft (run_ok.mpr hx)
          · rcases refuses_expression_succ.mp hf with hf | ⟨left, s, hleft, hx⟩
            · exact hn.operand hlawful hc h (run_error.mpr hf)
            · exact hchain hleft (run_error.mpr hx)

end Row

end Clipper
