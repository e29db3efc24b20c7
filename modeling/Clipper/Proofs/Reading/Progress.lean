import Clipper.Proofs.Reading.Expression
import Clipper.Proofs.Reading.Pending

/-!
Every reading moves onward, whatever the text, and what has been read successfully has
taken a token. So no loop of the grammar comes to the end of its rounds, and its runs
are the derivations of `Repeats` and `Lists`, where rounds do not occur.
-/

namespace Clipper

/-- Onward, with at least one token taken. -/
structure Reader.Past (r r' : Reader) : Prop where
  onward : r.Onward r'
  shorter : r'.pending.length < r.pending.length

namespace Reader

variable {r r' r'' : Reader}

theorem Past.trans_onward (h : r.Past r') (h' : r'.Onward r'') : r.Past r'' :=
  ⟨h.onward.trans h', Nat.lt_of_le_of_lt h'.length_le h.shorter⟩

theorem Onward.trans_past (h : r.Onward r') (h' : r'.Past r'') : r.Past r'' :=
  ⟨h.trans h'.onward, Nat.lt_of_lt_of_le h'.shorter h.length_le⟩

theorem past_advanced (hr : r.Sound) (h : r.atEnd = false) : r.Past r.advanced :=
  ⟨onward_advanced hr, length_advanced_lt hr h⟩

theorem atEnd_of_kind {k : TokenKind} (h : r.current.kind = k) (hk : k ≠ .endOfInput) :
    r.atEnd = false := by
  simp [atEnd, Token.isEnd, h, hk]

theorem atEnd_of_keyword {k : Keyword} (h : r.current.isKeyword k = true) : r.atEnd = false :=
  atEnd_of_kind (by simpa [Token.isKeyword] using h) (by simp)

theorem atEnd_of_punctuation {p : Punctuation} (h : r.current.isPunctuation p = true) :
    r.atEnd = false :=
  atEnd_of_kind (by simpa [Token.isPunctuation] using h) (by simp)

theorem atEnd_of_operator {o : Operator} (h : r.current.isOperator o = true) :
    r.atEnd = false :=
  atEnd_of_kind (by simpa [Token.isOperator] using h) (by simp)

theorem atEnd_of_atAny {ks : List Keyword} (h : r.atAny ks = true) : r.atEnd = false := by
  simp only [atAny, TokenKind.keyword?] at h
  split at h
  · rename_i k hk
    exact atEnd_of_kind hk (by simp)
  · simp at h

/-- Where a token was not taken, recovery takes one. -/
theorem past_recovered {c : Context} (hr : r.Sound) (ho : r.Onward r') (h : r.atEnd = false) :
    r.Past (r'.recovered c r.current.span.start) := by
  have hs := onward_recovered (c := c) ho.sound r.current.span.start
  by_cases hlt : r'.pending.length < r.pending.length
  · exact ⟨ho.trans hs, Nat.lt_of_le_of_lt hs.length_le hlt⟩
  have hp : r'.pending = r.pending :=
    ho.pending.eq_of_length (Nat.le_antisymm ho.length_le (Nat.not_lt.mp hlt))
  have he : r'.atEnd = false := by
    cases h' : r'.atEnd with
    | false => rfl
    | true =>
        rw [pending_of_atEnd ho.sound h', pending_eq_cons hr h] at hp
        simp at hp
  have hc : r'.current = r.current := by
    rw [pending_eq_cons hr h, pending_eq_cons ho.sound he] at hp
    exact (List.cons.inj hp).1
  have hrec : r'.recovered c r.current.span.start = r'.advanced.lineSkipped c := by
    have hend : r.current.isEnd = false := h
    simp [recovered, hc, hend]
  rw [hrec]
  exact ho.trans_past
    ((past_advanced ho.sound he).trans_onward (onward_lineSkipped (sound_advanced ho.sound)))

end Reader

namespace Grammar

variable {α β : Type} {e : Expressions} {c : Context} {r r' : Reader}

/-- The reading never goes back. -/
def Steady (m : Reading α) : Prop :=
  ∀ ⦃r x r'⦄, r.Sound → Run m r x r' → r.Onward r'

theorem Steady.yields {a : Attempt α} (ha : Steady a.run) (hr : r.Sound) {x : α}
    (h : Yields a r x r') : r.Onward r' := ha hr (run_ok.mpr h)

theorem Steady.refuses {a : Attempt α} (ha : Steady a.run) (hr : r.Sound)
    (h : Refuses a r r') : r.Onward r' := ha hr (run_error.mpr h)

theorem Steady.of_attempt {a : Attempt α}
    (hy : ∀ ⦃r x r'⦄, r.Sound → Yields a r x r' → r.Onward r')
    (hf : ∀ ⦃r r'⦄, r.Sound → Refuses a r r' → r.Onward r') : Steady a.run := by
  intro r x r' hr h
  rcases run_attempt h with ⟨x, rfl, h⟩ | ⟨rfl, h⟩
  · exact hy hr h
  · exact hf hr h

/-! ### Loops -/

/-- The runs of a repetition. -/
inductive Repeats (more : Reader → Bool) (body : Reading (List α)) :
    Reader → List α → Reader → Prop
  | stop {r : Reader} : more r = false → Repeats more body r [] r
  | round {r s r' : Reader} {xs ys : List α} : more r = true → Run body r xs s →
      Repeats more body s ys r' → Repeats more body r (xs ++ ys) r'

/-- The runs of a list with commas. -/
inductive Lists (item : Attempt α) : Reader → List α → Bool → Reader → Prop
  | refused {r r' : Reader} : Refuses item r r' → Lists item r [] false r'
  | last {r r' : Reader} {x : α} : Yields item r x r' →
      r'.current.isPunctuation .comma = false → Lists item r [x] true r'
  | more {r s r' : Reader} {x : α} {xs : List α} {whole : Bool} : Yields item r x s →
      s.current.isPunctuation .comma = true → Lists item s.advanced xs whole r' →
      Lists item r (x :: xs) whole r'

theorem length_pending_lt_rounds (r : Reader) : r.pending.length < r.rounds.length := by
  have h : r.pending.length ≤ (r.current :: r.next :: r.ahead).length :=
    List.length_filter_le _ _
  simp only [Reader.rounds, List.length_cons] at *
  omega

theorem run_repeated_go_cons {more : Reader → Bool} {body : Reading (List α)} {t : Token}
    {rounds : List Token} {xs : List α} :
    Run (repeated.go more body (t :: rounds)) r xs r' ↔
      if more r then ∃ ys s zs, Run body r ys s ∧ Run (repeated.go more body rounds) s zs r' ∧
        ys ++ zs = xs
      else [] = xs ∧ r = r' := by
  rw [repeated.go, run_bind]
  constructor
  · rintro ⟨_, _, hget, h⟩
    obtain ⟨rfl, rfl⟩ := run_get.mp hget
    split at h
    · rename_i hm
      rw [if_pos hm]
      obtain ⟨ys, s, hb, h⟩ := run_bind.mp h
      obtain ⟨zs, _, hz, h⟩ := run_bind.mp h
      obtain ⟨rfl, rfl⟩ := run_pure.mp h
      exact ⟨ys, s, zs, hb, hz, rfl⟩
    · rename_i hm
      rw [if_neg hm]
      exact run_pure.mp h
  · intro h
    refine ⟨r, r, run_get.mpr ⟨rfl, rfl⟩, ?_⟩
    split at h
    · rename_i hm
      obtain ⟨ys, s, zs, hb, hz, rfl⟩ := h
      rw [if_pos hm]
      exact run_bind.mpr ⟨ys, s, hb, run_bind.mpr ⟨zs, r', hz, by simp⟩⟩
    · rename_i hm
      rw [if_neg hm]
      exact run_pure.mpr h

theorem run_repeated {more : Reader → Bool} {body : Reading (List α)}
    (hbody : ∀ ⦃r xs r'⦄, r.Sound → more r = true → Run body r xs r' → r.Past r')
    (hr : r.Sound) {xs : List α} :
    Run (repeated more body) r xs r' ↔ Repeats more body r xs r' := by
  have hgo : ∀ (rounds : List Token) (r : Reader) (xs : List α) (r' : Reader), r.Sound →
      r.pending.length < rounds.length →
        (Run (repeated.go more body rounds) r xs r' ↔ Repeats more body r xs r') := by
    intro rounds
    induction rounds with
    | nil => intro _ _ _ _ h; simp at h
    | cons t rounds ih =>
        intro r xs r' hr hlt
        rw [run_repeated_go_cons]
        constructor
        · intro h
          split at h
          · rename_i hm
            obtain ⟨ys, s, zs, hb, hz, rfl⟩ := h
            have hp := hbody hr hm hb
            have hlt' := Nat.lt_of_lt_of_le hp.shorter (Nat.le_of_lt_succ hlt)
            exact .round hm hb ((ih s zs r' hp.onward.sound hlt').mp hz)
          · rename_i hm
            obtain ⟨rfl, rfl⟩ := h
            exact .stop (by simpa using hm)
        · intro h
          cases h with
          | stop hm => simp [hm]
          | @round _ s _ ys zs hm hb hz =>
              have hp := hbody hr hm hb
              have hlt' := Nat.lt_of_lt_of_le hp.shorter (Nat.le_of_lt_succ hlt)
              rw [if_pos hm]
              exact ⟨ys, s, zs, hb, (ih s zs r' hp.onward.sound hlt').mpr hz, rfl⟩
  rw [repeated, run_bind]
  constructor
  · rintro ⟨_, _, hget, h⟩
    obtain ⟨rfl, rfl⟩ := run_get.mp hget
    exact (hgo _ r xs r' hr (length_pending_lt_rounds r)).mp h
  · intro h
    exact ⟨r, r, run_get.mpr ⟨rfl, rfl⟩,
      (hgo _ r xs r' hr (length_pending_lt_rounds r)).mpr h⟩

theorem run_listed_go_cons {item : Attempt α} {t : Token} {rounds : List Token} {xs : List α}
    {whole : Bool} :
    Run (listed.go item (t :: rounds)) r (xs, whole) r' ↔
      (∃ x s, Yields item r x s ∧
        if s.current.isPunctuation .comma then
          ∃ ys, Run (listed.go item rounds) s.advanced (ys, whole) r' ∧ x :: ys = xs
        else [x] = xs ∧ true = whole ∧ s = r') ∨
      Refuses item r r' ∧ [] = xs ∧ false = whole := by
  rw [listed.go, run_bind, exists_except]
  refine or_congr (exists_congr fun x => exists_congr fun s => and_congr run_ok ?_) ?_
  · rw [run_bind]
    constructor
    · rintro ⟨t, s', ht, h⟩
      rw [run_punctuation?] at ht
      split at ht
      · rename_i hcomma
        obtain ⟨rfl, rfl⟩ := ht
        rw [Option.isSome_some, if_pos rfl] at h
        obtain ⟨⟨ys, w⟩, s', hys, h⟩ := run_bind.mp h
        obtain ⟨hout, rfl⟩ := run_pure.mp h
        obtain ⟨rfl, rfl⟩ := Prod.mk.inj hout
        rw [if_pos hcomma]
        exact ⟨ys, hys, rfl⟩
      · rename_i hcomma
        obtain ⟨rfl, rfl⟩ := ht
        rw [if_neg hcomma]
        simpa [and_assoc] using h
    · intro h
      split at h
      · rename_i hcomma
        obtain ⟨ys, hys, rfl⟩ := h
        refine ⟨some s.current, s.advanced, by simp [hcomma], ?_⟩
        rw [Option.isSome_some, if_pos rfl]
        exact run_bind.mpr ⟨(ys, whole), r', hys, by simp⟩
      · rename_i hcomma
        obtain ⟨rfl, rfl, rfl⟩ := h
        exact ⟨none, s, by simp [hcomma], by simp⟩
  · constructor
    · rintro ⟨s, hx, h⟩
      obtain ⟨hout, rfl⟩ := run_pure.mp h
      obtain ⟨rfl, rfl⟩ := Prod.mk.inj hout
      exact ⟨run_error.mp hx, rfl, rfl⟩
    · rintro ⟨hx, rfl, rfl⟩
      exact ⟨r', run_error.mpr hx, by simp⟩

theorem run_listed {item : Attempt α} (hitem : Steady item.run) (hr : r.Sound) {xs : List α}
    {whole : Bool} :
    Run (listed item) r (xs, whole) r' ↔ Lists item r xs whole r' := by
  have hgo : ∀ (rounds : List Token) (r : Reader) (xs : List α) (whole : Bool) (r' : Reader),
      r.Sound → r.pending.length < rounds.length →
        (Run (listed.go item rounds) r (xs, whole) r' ↔ Lists item r xs whole r') := by
    intro rounds
    induction rounds with
    | nil => intro _ _ _ _ _ h; simp at h
    | cons t rounds ih =>
        intro r xs whole r' hr hlt
        -- The comma behind an item is what makes the next round shorter.
        have hcomma : ∀ {x : α} {s : Reader}, Yields item r x s →
            s.current.isPunctuation .comma = true → s.advanced.Sound ∧
              s.advanced.pending.length < rounds.length := by
          intro x s hx hc
          have ho := hitem.yields hr hx
          have hp := ho.trans_past (Reader.past_advanced ho.sound (Reader.atEnd_of_punctuation hc))
          exact ⟨hp.onward.sound, Nat.lt_of_lt_of_le hp.shorter (Nat.le_of_lt_succ hlt)⟩
        rw [run_listed_go_cons]
        constructor
        · rintro (⟨x, s, hx, h⟩ | ⟨hx, rfl, rfl⟩)
          · split at h
            · rename_i hc
              obtain ⟨ys, hys, rfl⟩ := h
              obtain ⟨hs, hl⟩ := hcomma hx hc
              exact .more hx hc ((ih _ _ _ _ hs hl).mp hys)
            · rename_i hc
              obtain ⟨rfl, rfl, rfl⟩ := h
              exact .last hx (by simpa using hc)
          · exact .refused hx
        · intro h
          cases h with
          | refused hx => exact .inr ⟨hx, rfl, rfl⟩
          | @last _ _ x hx hc => exact .inl ⟨x, r', hx, by simp [hc]⟩
          | @more _ s _ x ys _ hx hc hys =>
              obtain ⟨hs, hl⟩ := hcomma hx hc
              refine .inl ⟨x, s, hx, ?_⟩
              rw [if_pos hc]
              exact ⟨ys, (ih _ _ _ _ hs hl).mpr hys, rfl⟩
  rw [listed, run_bind]
  constructor
  · rintro ⟨_, _, hget, h⟩
    obtain ⟨rfl, rfl⟩ := run_get.mp hget
    exact (hgo _ r xs whole r' hr (length_pending_lt_rounds r)).mp h
  · intro h
    exact ⟨r, r, run_get.mpr ⟨rfl, rfl⟩,
      (hgo _ r xs whole r' hr (length_pending_lt_rounds r)).mpr h⟩

theorem Repeats.onward {more : Reader → Bool} {body : Reading (List α)}
    (hbody : ∀ ⦃r xs r'⦄, r.Sound → more r = true → Run body r xs r' → r.Past r')
    {xs : List α} (h : Repeats more body r xs r') (hr : r.Sound) : r.Onward r' := by
  induction h with
  | stop _ => exact .refl hr
  | round hm hb _ ih =>
      have ho := (hbody hr hm hb).onward
      exact ho.trans (ih ho.sound)

theorem Lists.onward {item : Attempt α} (hitem : Steady item.run) {xs : List α} {whole : Bool}
    (h : Lists item r xs whole r') (hr : r.Sound) : r.Onward r' := by
  induction h with
  | refused hx => exact hitem.refuses hr hx
  | last hx _ => exact hitem.yields hr hx
  | more hx _ _ ih =>
      have ho := hitem.yields hr hx
      exact ho.trans ((Reader.onward_advanced ho.sound).trans (ih (Reader.sound_advanced ho.sound)))

/-! ### Tokens and lists -/

theorem steady_take? (p : Token → Bool) : Steady (take? p) := by
  intro r t r' hr h
  rw [run_take?] at h
  split at h
  · obtain ⟨rfl, rfl⟩ := h
    exact Reader.onward_advanced hr
  · obtain ⟨rfl, rfl⟩ := h
    exact .refl hr

theorem steady_expectPunctuation (p : Punctuation) : Steady (expectPunctuation p).run := by
  refine .of_attempt (fun r x r' hr h => ?_) fun r r' hr h => ?_
  · obtain ⟨_, rfl⟩ := yields_expectPunctuation.mp h
    exact Reader.onward_advanced hr
  · obtain ⟨_, rfl⟩ := refuses_expectPunctuation.mp h
    exact Reader.onward_reported hr _ rfl

theorem steady_name (what : String) : Steady (name what).run := by
  refine .of_attempt (fun r x r' hr h => ?_) fun r r' hr h => ?_
  · obtain ⟨_, _, rfl⟩ := yields_name.mp h
    exact Reader.onward_advanced hr
  · obtain ⟨_, rfl⟩ := refuses_name.mp h
    exact Reader.onward_reported hr _ rfl

theorem steady_nameOrMissing (what : String) : Steady (nameOrMissing what) := by
  intro r n r' hr h
  rw [run_nameOrMissing] at h
  split at h
  · obtain ⟨_, rfl⟩ := h
    exact Reader.onward_advanced hr
  · obtain ⟨_, rfl⟩ := h
    exact Reader.onward_reported hr _ rfl

theorem steady_single {a : Attempt α} (ha : Steady a.run) : Steady (single a) := by
  intro r out r' hr h
  rcases run_single.mp h with ⟨x, hx, _⟩ | ⟨hx, _⟩
  · exact ha.yields hr hx
  · exact ha.refuses hr hx

theorem steady_listed {item : Attempt α} (hitem : Steady item.run) : Steady (listed item) := by
  rintro r ⟨xs, whole⟩ r' hr h
  exact ((run_listed hitem hr).mp h).onward hitem hr

theorem steady_listUpTo {close : Punctuation} {item : Attempt α} (hitem : Steady item.run) :
    Steady (listUpTo close item).run := by
  refine .of_attempt (fun r xs r' hr h => ?_) fun r r' hr h => ?_
  · rw [yields_listUpTo] at h
    split at h
    · obtain ⟨_, rfl⟩ := h
      exact Reader.onward_advanced hr
    · obtain ⟨s, hs, _, rfl⟩ := h
      have ho := steady_listed hitem hr hs
      exact ho.trans (Reader.onward_advanced ho.sound)
  · obtain ⟨_, ⟨xs, h⟩ | ⟨xs, s, hs, h⟩⟩ := refuses_listUpTo.mp h
    · exact steady_listed hitem hr h
    · have ho := steady_listed hitem hr hs
      exact ho.trans ((steady_expectPunctuation close).refuses ho.sound h)

/-- Once something has been read or given up, a token has been taken. -/
theorem past_recovering {body : Reading (List α × Bool)} (hbody : Steady body)
    (hpast : ∀ ⦃r xs r'⦄, r.Sound → r.atEnd = false → Run body r (xs, true) r' → r.Past r')
    {xs : List α} (hr : r.Sound) (hend : r.atEnd = false)
    (h : Run (recovering c body) r xs r') : r.Past r' := by
  obtain ⟨whole, s, hs, rfl⟩ := run_recovering.mp h
  cases whole with
  | true => exact hpast hr hend hs
  | false => exact Reader.past_recovered hr (hbody hr hs) hend

/-! ### Statements -/

/-- What the readings of statements rely on in the reading of expressions they are given. -/
structure Expressions.Lawful (e : Expressions) : Prop where
  steady : ∀ c p, Steady (e c p).run
  past : ∀ ⦃c p r x r'⦄, r.Sound → Yields (e c p) r x r' → r.Past r'

theorem steady_expressionOrMissing (he : e.Lawful) (p : Nat) :
    Steady (expressionOrMissing e c p) := by
  intro r x r' hr h
  rcases run_expressionOrMissing.mp h with h | ⟨s, hs, _, hr'⟩
  · exact (he.steady c p).yields hr h
  · have ho := (he.steady c p).refuses hr hs
    split at hr'
    · exact hr' ▸ ho
    · exact hr' ▸ ho.trans (Reader.onward_lineSkipped ho.sound)

theorem steady_closing (k : Keyword) (opener : Token) : Steady (closing k opener) := by
  intro r t r' hr h
  rw [run_closing] at h
  split at h
  · obtain ⟨_, rfl⟩ := h
    exact Reader.onward_advanced hr
  · obtain ⟨_, rfl⟩ := h
    exact Reader.onward_reported hr _ rfl

theorem steady_endOfStatement : Steady (endOfStatement c).run := by
  refine .of_attempt (fun r x r' hr h => ?_) fun r r' hr h => ?_
  · obtain ⟨_, rfl⟩ := yields_endOfStatement.mp h
    exact .refl hr
  · obtain ⟨_, rfl⟩ := refuses_endOfStatement.mp h
    exact Reader.onward_reported hr _ rfl

theorem steady_succeeds {a : Attempt Unit} (ha : Steady a.run) : Steady (succeeds a) := by
  intro r b r' hr h
  rcases run_succeeds.mp h with ⟨h, _⟩ | ⟨h, _⟩
  · exact ha.yields hr h
  · exact ha.refuses hr h

theorem steady_declarator (he : e.Lawful) : Steady (declarator e c).run := by
  refine .of_attempt (fun r x r' hr h => ?_) fun r r' hr h => ?_
  · obtain ⟨_, h⟩ := yields_declarator.mp h
    have ho := Reader.onward_advanced hr
    split at h
    · obtain ⟨y, hy, _⟩ := h
      have ho' := ho.trans (Reader.onward_advanced ho.sound)
      exact ho'.trans (steady_expressionOrMissing he _ ho'.sound hy)
    · obtain ⟨_, rfl⟩ := h
      exact ho
  · obtain ⟨_, rfl⟩ := refuses_declarator.mp h
    exact Reader.onward_reported hr _ rfl

theorem onward_variableList (he : e.Lawful) {out : List Stmt × Bool} (hr : r.Sound)
    (h : Run (variableList e c) r out r') : r.advanced.Onward r' := by
  obtain ⟨ds, whole, s, hs, h⟩ := run_variableList.mp h
  have ho := steady_listed (steady_declarator he) (Reader.sound_advanced hr) hs
  split at h
  · obtain ⟨b, hb, _⟩ := h
    exact ho.trans (steady_succeeds steady_endOfStatement ho.sound hb)
  · obtain ⟨_, rfl⟩ := h
    exact ho

theorem steady_returnedValue (he : e.Lawful) : Steady (returnedValue e c).run := by
  refine .of_attempt (fun r x r' hr h => ?_) fun r r' hr h => ?_
  · rw [yields_returnedValue] at h
    split at h
    · obtain ⟨_, rfl⟩ := h
      exact .refl hr
    · obtain ⟨y, hy, _⟩ := h
      exact (he.past hr hy).onward
  · exact (he.steady c _).refuses hr (refuses_returnedValue.mp h).2

theorem onward_returned (he : e.Lawful) {out : List Stmt × Bool} (hr : r.Sound)
    (h : Run (single (returned e c)) r out r') : r.advanced.Onward r' := by
  have hs := Reader.sound_advanced hr
  rcases run_single.mp h with ⟨x, h, _⟩ | ⟨h, _⟩
  · obtain ⟨v, hv, _, _⟩ := yields_returned.mp h
    exact (steady_returnedValue he).yields hs hv
  · rcases refuses_returned.mp h with h | ⟨v, s, hv, h⟩
    · exact (steady_returnedValue he).refuses hs h
    · have ho := (steady_returnedValue he).yields hs hv
      exact ho.trans (steady_endOfStatement.refuses ho.sound h)

theorem steady_expressionStatement (he : e.Lawful) : Steady (expressionStatement e c).run := by
  refine .of_attempt (fun r x r' hr h => ?_) fun r r' hr h => ?_
  · obtain ⟨y, hy, _, _⟩ := yields_expressionStatement.mp h
    exact (he.past hr hy).onward
  · rcases refuses_expressionStatement.mp h with h | ⟨y, s, hy, h⟩
    · exact (he.steady c _).refuses hr h
    · have ho := (he.past hr hy).onward
      exact ho.trans (steady_endOfStatement.refuses ho.sound h)

theorem steady_plain (he : e.Lawful) : Steady (plain e c) := by
  intro r out r' hr h
  have ha := Reader.onward_advanced hr
  rw [run_plain] at h
  split at h
  · exact ha.trans (onward_variableList he hr h)
  split at h
  · exact ha.trans (onward_returned he hr h)
  split at h
  · exact steady_single (steady_expressionStatement he) hr h
  · obtain ⟨_, rfl⟩ := h
    exact ha.trans (Reader.onward_reported ha.sound _ rfl)

theorem past_plain (he : e.Lawful) {ss : List Stmt} (hr : r.Sound) (hend : r.atEnd = false)
    (h : Run (plain e c) r (ss, true) r') : r.Past r' := by
  have ha := Reader.past_advanced hr hend
  rw [run_plain] at h
  split at h
  · exact ha.trans_onward (onward_variableList he hr h)
  split at h
  · exact ha.trans_onward (onward_returned he hr h)
  split at h
  · rcases run_single.mp h with ⟨x, h, _⟩ | ⟨_, h⟩
    · obtain ⟨y, hy, _, _⟩ := yields_expressionStatement.mp h
      exact he.past hr hy
    · simp at h
  · obtain ⟨_, rfl⟩ := h
    exact ha.trans_onward (Reader.onward_reported ha.onward.sound _ rfl)

theorem past_wholeStatement {body : Reading (List Stmt × Bool)} (hbody : Steady body)
    (hpast : ∀ ⦃r xs r'⦄, r.Sound → r.atEnd = false → Run body r (xs, true) r' → r.Past r')
    {ss : List Stmt} (hr : r.Sound) (hend : r.atEnd = false)
    (h : Run (wholeStatement c body) r ss r') : r.Past r' := by
  obtain ⟨s, hs, rfl⟩ := run_wholeStatement.mp h
  have hp := past_recovering hbody hpast hr hend hs
  exact hp.trans_onward (Reader.onward_settled hp.onward.sound)

theorem past_plainStatement (he : e.Lawful) {ss : List Stmt} (hr : r.Sound)
    (hend : r.atEnd = false) (h : Run (plainStatement e c) r ss r') : r.Past r' :=
  past_wholeStatement (steady_plain he) (fun _ _ _ => past_plain he) hr hend h

/-- The runs of a block, once its statements are known to take tokens. -/
theorem run_block_repeats {statement : Context → Reading (List Stmt)} {closers : List Keyword}
    (hpast : ∀ ⦃c r ss r'⦄, r.Sound → r.atEnd = false → Run (statement c) r ss r' → r.Past r')
    (hr : r.Sound) {b : Block} :
    Run (block statement c closers) r b r' ↔
      ∃ ss, Repeats (fun r => !r.atEnd && !r.atAny (c.enter closers).closers)
        (statement (c.enter closers)) r ss r' ∧ ⟨r.current, ss⟩ = b := by
  rw [run_block]
  refine exists_congr fun ss => and_congr_left fun _ => run_repeated (fun r ss r' hr hm h => ?_) hr
  simp only [Bool.and_eq_true, Bool.not_eq_true'] at hm
  exact hpast hr hm.1 h

theorem steady_block {statement : Context → Reading (List Stmt)} {closers : List Keyword}
    (hpast : ∀ ⦃c r ss r'⦄, r.Sound → r.atEnd = false → Run (statement c) r ss r' → r.Past r') :
    Steady (block statement c closers) := by
  intro r b r' hr h
  obtain ⟨ss, h, _⟩ := (run_block_repeats hpast hr).mp h
  refine h.onward (fun r ss r' hr hm h => ?_) hr
  simp only [Bool.and_eq_true, Bool.not_eq_true'] at hm
  exact hpast hr hm.1 h

/-! ### Declarations -/

theorem steady_parameters : Steady (parameters c) := by
  intro r ns r' hr h
  have ha := Reader.onward_advanced hr
  rw [run_parameters] at h
  split at h
  · rcases h with h | ⟨s, h, _, rfl⟩
    · exact ha.trans ((steady_listUpTo (steady_name _)).yields ha.sound h)
    · have ho := ha.trans ((steady_listUpTo (steady_name _)).refuses ha.sound h)
      exact ho.trans (Reader.onward_lineSkipped ho.sound)
  · obtain ⟨_, rfl⟩ := h
    exact .refl hr

theorem steady_routine (he : e.Lawful) {what : String} {t : Token} {closers : List Keyword}
    {close : Keyword} : Steady (routine e c what t closers close) := by
  intro r x r' hr h
  obtain ⟨n, s, ps, s₁, b, s₂, hn, hps, hb, closing, hc, _⟩ := run_routine.mp h
  have h₁ := steady_nameOrMissing _ hr hn
  have h₂ := steady_parameters h₁.sound hps
  have h₃ := steady_block (fun _ _ _ _ => past_plainStatement he) h₂.sound hb
  exact h₁.trans (h₂.trans (h₃.trans (steady_take? _ h₃.sound hc)))

theorem onward_function (he : e.Lawful) {x : Stmt} (hr : r.Sound)
    (h : Run (function e c) r x r') : r.advanced.Onward r' := by
  obtain ⟨f, h, _⟩ := run_function.mp h
  have hs := Reader.sound_advanced hr
  split at h
  · have ha := Reader.onward_advanced hs
    exact ha.trans (steady_routine he ha.sound h)
  · exact steady_routine he hs h

theorem onward_attributes {out : List Member × Bool} (hr : r.Sound)
    (h : Run (attributes c) r out r') : r.advanced.Onward r' := by
  obtain ⟨ns, whole, s, hs, h⟩ := run_attributes.mp h
  have ho := steady_listed (steady_name _) (Reader.sound_advanced hr) hs
  split at h
  · obtain ⟨b, hb, _⟩ := h
    exact ho.trans (steady_succeeds steady_endOfStatement ho.sound hb)
  · obtain ⟨_, rfl⟩ := h
    exact ho

theorem onward_method (he : e.Lawful) {out : List Member × Bool} (hr : r.Sound)
    (h : Run (method e c) r out r') : r.advanced.Onward r' := by
  obtain ⟨m, h, _⟩ := run_method.mp h
  exact steady_routine he (Reader.sound_advanced hr) h

theorem steady_member (he : e.Lawful) : Steady (member e c) := by
  intro r out r' hr h
  have ha := Reader.onward_advanced hr
  rw [run_member] at h
  split at h
  · exact ha.trans (onward_attributes hr h)
  split at h
  · exact ha.trans (onward_method he hr h)
  · obtain ⟨_, rfl⟩ := h
    exact Reader.onward_reported hr _ rfl

theorem past_member (he : e.Lawful) {ms : List Member} (hr : r.Sound) (hend : r.atEnd = false)
    (h : Run (member e c) r (ms, true) r') : r.Past r' := by
  have ha := Reader.past_advanced hr hend
  rw [run_member] at h
  split at h
  · exact ha.trans_onward (onward_attributes hr h)
  split at h
  · exact ha.trans_onward (onward_method he hr h)
  · simp at h

/-- More members may follow. -/
def moreMembers (c : Context) (r : Reader) : Bool :=
  r.atAny [.kwData, .kwMethod] || (!r.atEnd && !r.atAny c.closers)

theorem atEnd_of_moreMembers (h : moreMembers c r = true) : r.atEnd = false := by
  simp only [moreMembers, Bool.or_eq_true, Bool.and_eq_true, Bool.not_eq_true'] at h
  rcases h with h | ⟨h, _⟩
  · exact Reader.atEnd_of_atAny h
  · exact h

theorem past_memberRound (he : e.Lawful) ⦃r : Reader⦄ ⦃ms : List Member⦄ ⦃r' : Reader⦄
    (hr : r.Sound) (hm : moreMembers c r = true)
    (h : Run (recovering c (member e c)) r ms r') : r.Past r' :=
  past_recovering (steady_member he) (fun _ _ _ => past_member he) hr (atEnd_of_moreMembers hm) h

theorem run_members_repeats (he : e.Lawful) (hr : r.Sound) {ms : List Member} :
    Run (members e c) r ms r' ↔
      Repeats (moreMembers c) (recovering c (member e c)) r ms r' :=
  run_repeated (past_memberRound he) hr

theorem steady_members (he : e.Lawful) : Steady (members e c) := by
  intro r ms r' hr h
  exact ((run_members_repeats he hr).mp h).onward (past_memberRound he) hr

theorem steady_parentClass : Steady parentClass := by
  intro r n r' hr h
  have ha := Reader.onward_advanced hr
  rw [run_parentClass] at h
  split at h
  · rcases h with ⟨p, h, _⟩ | ⟨h, _⟩
    · exact ha.trans ((steady_name _).yields ha.sound h)
    · exact ha.trans ((steady_name _).refuses ha.sound h)
  · obtain ⟨_, rfl⟩ := h
    exact .refl hr

theorem onward_classDefinition (he : e.Lawful) {x : Stmt} (hr : r.Sound)
    (h : Run (classDefinition e c) r x r') : r.advanced.Onward r' := by
  obtain ⟨n, s, parent, s₁, ms, s₂, hn, hp, hms, closed, hc, _⟩ := run_classDefinition.mp h
  have h₁ := steady_nameOrMissing _ (Reader.sound_advanced hr) hn
  have h₂ := steady_parentClass h₁.sound hp
  have h₃ := steady_members he h₂.sound hms
  exact h₁.trans (h₂.trans (h₃.trans (steady_closing _ _ h₃.sound hc)))

theorem steady_general (he : e.Lawful) : Steady (general e c) := by
  intro r out r' hr h
  have ha := Reader.onward_advanced hr
  rw [run_general] at h
  split at h
  · exact steady_plain he hr h
  split at h
  · obtain ⟨f, h, _⟩ := h
    exact ha.trans (onward_function he hr h)
  split at h
  · obtain ⟨d, h, _⟩ := h
    exact ha.trans (onward_classDefinition he hr h)
  · exact steady_plain he hr h

theorem past_general (he : e.Lawful) {ss : List Stmt} (hr : r.Sound) (hend : r.atEnd = false)
    (h : Run (general e c) r (ss, true) r') : r.Past r' := by
  have ha := Reader.past_advanced hr hend
  rw [run_general] at h
  split at h
  · exact past_plain he hr hend h
  split at h
  · obtain ⟨f, h, _⟩ := h
    exact ha.trans_onward (onward_function he hr h)
  split at h
  · obtain ⟨d, h, _⟩ := h
    exact ha.trans_onward (onward_classDefinition he hr h)
  · exact past_plain he hr hend h

/-- Every statement takes a token. -/
theorem past_statement (he : e.Lawful) {ss : List Stmt} (hr : r.Sound) (hend : r.atEnd = false)
    (h : Run (statement e c) r ss r') : r.Past r' :=
  past_wholeStatement (steady_general he) (fun _ _ _ => past_general he) hr hend h

end Grammar

end Clipper
