import Clipper.Proofs.Faults.Productions
import Clipper.Proofs.Grammar.Spot

/-!
Soundness of the reading of statements: what is read without a fault is derived by the
grammar. Where a fault would have been found the reading is not clean, so that only the
rules of the grammar are left.
-/

namespace Clipper

namespace Reader

variable {r r' : Reader}

/-- Every fault found so far passes. In a lax reading warnings do. -/
def Clean (lax : Bool) (r : Reader) : Prop :=
  ∀ f ∈ r.faults, lax = true ∧ f.isError = false

variable {lax : Bool}

theorem Clean.of_onward (h : r'.Clean lax) (ho : r.Onward r') : r.Clean lax :=
  fun f hf => h f (ho.mem_faults hf)

theorem GivesUp.not_clean (h : r.GivesUp r') : ¬r'.Clean lax := by
  intro hclean
  rcases h.error with ⟨t, ht⟩ | ⟨fs, hfs, he⟩
  · simpa [Fault.isError] using (hclean _ ht).2
  · obtain ⟨f, hf, he⟩ := List.any_eq_true.mp he
    have hmem : f ∈ r'.faults := by
      rw [← Array.mem_toList_iff, hfs]
      exact List.mem_append_right _ hf
    rw [(hclean f hmem).2] at he
    exact Bool.noConfusion he

theorem not_clean_reported (hr : r.Sound) {f : Fault} (hf : f.isError = true)
    (hillegal : f.illegal? = none) : ¬(r.reported f).Clean lax :=
  (GivesUp.reported hr hf hillegal).not_clean

end Reader

namespace Grammar

variable {lax : Bool} {m : Nat} {e : Expressions} {c : Context} {r r' : Reader}

/-! ### Tokens and names -/

theorem derives_names {what : String} {ns : List Name} (hr : r.Sound) (hclean : r'.Clean lax)
    (h : Lists (name what) r ns true r') : Names ns r.spot r'.spot := by
  generalize hw : true = whole at h
  induction h with
  | refused _ => simp at hw
  | last hx hcomma =>
      obtain ⟨hk, rfl, rfl⟩ := yields_name.mp hx
      have ha := Reader.sound_advanced hr
      rw [Reader.spot_eq hr (Reader.atEnd_of_kind hk (by simp))]
      exact .last hk (by rw [← hcomma]; exact Reader.next_spot ha _)
  | more hx hcomma _ ih =>
      obtain ⟨hk, rfl, rfl⟩ := yields_name.mp hx
      have ha := Reader.sound_advanced hr
      rw [Reader.spot_eq hr (Reader.atEnd_of_kind hk (by simp)),
        Reader.spot_eq ha (Reader.atEnd_of_punctuation hcomma)]
      exact .more hk hcomma (ih (Reader.sound_advanced ha) hclean hw)

/-- A name that was not missing. -/
theorem identifier_of_clean {what : String} {n : Name} (hr : r.Sound) (hclean : r'.Clean lax)
    (h : Run (nameOrMissing what) r n r') :
    r.current.kind = .identifier ∧ n = ⟨r.current⟩ ∧ r' = r.advanced := by
  rw [run_nameOrMissing] at h
  split at h
  · rename_i hk
    exact ⟨hk, h.1.symm, h.2.symm⟩
  · obtain ⟨_, rfl⟩ := h
    exact absurd hclean (Reader.not_clean_reported hr rfl rfl)

theorem closing_of_clean {k : Keyword} {opener : Token} {closed : Option Token} (hr : r.Sound)
    (hclean : r'.Clean lax) (h : Run (closing k opener) r closed r') :
    r.current.isKeyword k = true ∧ closed = some r.current ∧ r' = r.advanced := by
  rw [run_closing] at h
  split at h
  · rename_i hk
    exact ⟨hk, h.1.symm, h.2.symm⟩
  · obtain ⟨_, rfl⟩ := h
    exact absurd hclean (Reader.not_clean_reported hr rfl rfl)

theorem requireKeyword_of_clean {k : Keyword} (hr : r.Sound) (hclean : r'.Clean lax)
    (h : Run (requireKeyword k) r () r') : r.current.isKeyword k = true ∧ r' = r.advanced := by
  rw [run_requireKeyword] at h
  split at h
  · rename_i hk
    exact ⟨hk, h.symm⟩
  · exact absurd (h ▸ hclean) (Reader.not_clean_reported hr rfl rfl)

/-- What ended without a fault ended here. -/
theorem ends_of_clean {b : Bool} (hr : r.Sound) (hclean : r'.Clean lax)
    (h : Run (succeeds (endOfStatement c)) r b r') :
    b = true ∧ r.spot.stops c = true ∧ r' = r := by
  rcases run_succeeds.mp h with ⟨h, hb⟩ | ⟨h, _⟩
  · obtain ⟨hs, rfl⟩ := yields_endOfStatement.mp h
    exact ⟨hb.symm, (Reader.stops_spot hr).trans hs, rfl⟩
  · obtain ⟨_, rfl⟩ := refuses_endOfStatement.mp h
    exact absurd hclean (Reader.not_clean_reported hr rfl rfl)

/-- What was read without a fault is not recovered from. -/
theorem carried_of_clean {α : Type} {P : List α → Reader → Reader → Prop}
    {body : Reading (List α × Bool)} (hsteady : Steady body)
    (hbody : ∀ ⦃r xs whole r'⦄, r.Sound → r'.Clean lax → Run body r (xs, whole) r' →
      whole = true ∧ P xs r r')
    {xs : List α} (hr : r.Sound) (hclean : r'.Clean lax)
    (h : Run (recovering c body) r xs r') : P xs r r' := by
  obtain ⟨whole, s, hs, rfl⟩ := run_recovering.mp h
  have ho := hsteady hr hs
  cases whole with
  | true => exact (hbody hr hclean hs).2
  | false =>
      have := (hbody hr (hclean.of_onward (Reader.onward_recovered ho.sound _)) hs).1
      simp at this

theorem derives_parameters {ns : List Name} (hr : r.Sound) (hclean : r'.Clean lax)
    (h : Run (parameters c) r ns r') : Parameters ns r.spot r'.spot := by
  rw [run_parameters] at h
  split at h
  · rename_i ho
    obtain ⟨ho, hline⟩ := Bool.and_eq_true _ _ ▸ ho
    have hline : r.current.line = r.line := by simpa [Reader.sameLine] using hline
    have ha := Reader.sound_advanced hr
    rw [Reader.spot_eq hr (Reader.atEnd_of_punctuation ho)]
    rcases h with h | ⟨s, hs, rfl, rfl⟩
    · rw [yields_listUpTo] at h
      split at h
      · rename_i hc
        obtain ⟨rfl, rfl⟩ := h
        rw [Reader.spot_eq ha (Reader.atEnd_of_punctuation hc)]
        exact .empty ho hline hc
      · obtain ⟨s, hs, hc, rfl⟩ := h
        have hnames := (run_listed (steady_name _) ha).mp hs
        have hs := (hnames.onward (steady_name _) ha).sound
        have hn := derives_names ha (hclean.of_onward (Reader.onward_advanced hs)) hnames
        rw [Reader.spot_eq hs (Reader.atEnd_of_punctuation hc)] at hn
        exact .names ho hline hn hc
    · have hg := givesUp_listUpTo (steady_name _) (fun _ _ => givesUp_name) ha hs
      exact absurd hclean (hg.onward_right (Reader.onward_lineSkipped hg.onward.sound)).not_clean
  · rename_i ho
    obtain ⟨rfl, rfl⟩ := h
    refine .absent ?_
    rw [Reader.next_spot hr]
    simpa [Reader.sameLine, Reader.spot] using ho

/-! ### Statements -/

/-- What is asked of expressions: whatever is read without a fault is derived. -/
structure Expressions.Derived (lax : Bool) (m : Nat) (e : Expressions) : Prop
    extends e.Accounted where
  derives : ∀ ⦃c p r x r'⦄, r.Sound → r'.Clean lax → Yields (e c p) r x r' →
    Derives lax m (.expression c p x) r.spot r'.spot

section Statements

variable (he : e.Derived lax m)

include he

theorem derives_expressionOrMissing {p : Nat} {x : Expr} (hr : r.Sound) (hclean : r'.Clean lax)
    (h : Run (expressionOrMissing e c p) r x r') :
    Derives lax m (.expression c p x) r.spot r'.spot := by
  rcases run_expressionOrMissing.mp h with h | ⟨s, hs, _, hr'⟩
  · exact he.derives hr hclean h
  · have hg := he.refuses hr hs
    split at hr'
    · exact absurd (hr' ▸ hclean) hg.not_clean
    · exact absurd (hr' ▸ hclean)
        (hg.onward_right (Reader.onward_lineSkipped hg.onward.sound)).not_clean

theorem derives_declarator {d : Name × Option Expr} (hr : r.Sound) (hclean : r'.Clean lax)
    (h : Yields (declarator e c) r d r') : Derives lax m (.declarator c d) r.spot r'.spot := by
  obtain ⟨hk, h⟩ := yields_declarator.mp h
  have ha := Reader.sound_advanced hr
  rw [Reader.spot_eq hr (Reader.atEnd_of_kind hk (by simp))]
  split at h
  · rename_i hsign
    obtain ⟨x, hx, rfl⟩ := h
    rw [Reader.spot_eq ha (Reader.atEnd_of_operator hsign)]
    exact .initialized hk hsign
      (derives_expressionOrMissing he (Reader.sound_advanced ha) hclean hx)
  · rename_i hsign
    obtain ⟨rfl, rfl⟩ := h
    refine .declared hk ?_
    exact (Reader.next_spot ha _).trans (by simpa using hsign)

theorem derives_declarators {ds : List (Name × Option Expr)} (hr : r.Sound)
    (hclean : r'.Clean lax) (h : Lists (declarator e c) r ds true r') :
    Derives lax m (.declarators c ds) r.spot r'.spot := by
  have hsteady := steady_declarator (c := c) he.toLawful
  generalize hw : true = whole at h
  induction h with
  | refused _ => simp at hw
  | last hx hcomma =>
      have hs := (hsteady.yields hr hx).sound
      exact .lastDeclarator (derives_declarator he hr hclean hx)
        ((Reader.next_spot hs _).trans hcomma)
  | more hx hcomma hrest ih =>
      have hs := (hsteady.yields hr hx).sound
      have ha := Reader.onward_advanced hs
      have hd := derives_declarator he hr
        (hclean.of_onward (ha.trans (hrest.onward hsteady ha.sound))) hx
      rw [Reader.spot_eq hs (Reader.atEnd_of_punctuation hcomma)] at hd
      exact .moreDeclarators hd hcomma (ih ha.sound hclean hw)

theorem derives_variableList {ss : List Stmt} {whole : Bool} (hr : r.Sound)
    (hclean : r'.Clean lax) (hk : isStorage r.current.kind = true)
    (h : Run (variableList e c) r (ss, whole) r') :
    whole = true ∧ Derives lax m (.statement c ss) r.spot r'.spot := by
  obtain ⟨ds, whole', s, hs, h⟩ := run_variableList.mp h
  have ha := Reader.sound_advanced hr
  have hsteady := steady_declarator (c := c) he.toLawful
  have hlist := (run_listed hsteady ha).mp hs
  have ho := hlist.onward hsteady ha
  have hend : r.atEnd = false := Reader.atEnd_of_kind rfl fun h => by simp [isStorage, h] at hk
  cases whole' with
  | false =>
      obtain ⟨_, rfl⟩ := h
      refine absurd hclean (hlist.givesUp hsteady (fun r r' hr h => ?_) ha rfl).not_clean
      obtain ⟨_, rfl⟩ := refuses_declarator.mp h
      exact .reported hr rfl rfl
  | true =>
      obtain ⟨b, hb, hout⟩ := h
      obtain ⟨rfl, hwhole⟩ := Prod.mk.inj hout
      obtain ⟨hcarried, hstops, rfl⟩ := ends_of_clean ho.sound hclean hb
      refine ⟨hwhole ▸ hcarried, ?_⟩
      rw [Reader.spot_eq hr hend]
      exact .variableList hk (derives_declarators he ha hclean hlist) hstops

theorem derives_returned {x : Stmt} (hr : r.Sound) (hclean : r'.Clean lax)
    (hk : r.current.isKeyword .kwReturn = true) (h : Yields (returned e c) r x r') :
    Derives lax m (.statement c [x]) r.spot r'.spot := by
  obtain ⟨v, hv, hstops, rfl⟩ := yields_returned.mp h
  have ha := Reader.sound_advanced hr
  have hs := ((steady_returnedValue he.toLawful).yields ha hv).sound
  rw [Reader.spot_eq hr (Reader.atEnd_of_keyword hk)]
  rw [yields_returnedValue] at hv
  split at hv
  · obtain ⟨rfl, rfl⟩ := hv
    exact .returnNothing hk ((Reader.stops_spot ha).trans hstops)
  · rename_i hgoes
    obtain ⟨y, hy, rfl⟩ := hv
    refine .returnValue hk ?_ (he.derives ha hclean hy) ((Reader.stops_spot hs).trans hstops)
    exact (Reader.stops_spot ha).trans (by simpa using hgoes)

theorem derives_expressionStatement {x : Stmt} (hr : r.Sound) (hclean : r'.Clean lax)
    (h : Yields (expressionStatement e c) r x r') :
    Derives lax m (.statement c [x]) r.spot r'.spot := by
  obtain ⟨y, hy, hstops, rfl⟩ := yields_expressionStatement.mp h
  have hp := he.past hr hy
  have hend : r.atEnd = false := by
    cases hend : r.atEnd with
    | false => rfl
    | true => simpa [Reader.pending_of_atEnd hr hend] using hp.shorter
  have hd := he.derives hr hclean hy
  rw [Reader.spot_eq hr hend] at hd ⊢
  exact .value hd ((Reader.stops_spot hp.onward.sound).trans hstops)

theorem derives_plain {ss : List Stmt} {whole : Bool} (hr : r.Sound) (hclean : r'.Clean lax)
    (h : Run (plain e c) r (ss, whole) r') :
    whole = true ∧ Derives lax m (.statement c ss) r.spot r'.spot := by
  have ha := Reader.onward_advanced hr
  rw [run_plain] at h
  split at h
  · rename_i hk
    exact derives_variableList he hr hclean hk h
  split at h
  · rename_i hk
    rcases run_single.mp h with ⟨x, hx, hout⟩ | ⟨hx, _⟩
    · obtain ⟨rfl, rfl⟩ := Prod.mk.inj hout
      exact ⟨rfl, derives_returned he hr hclean hk hx⟩
    · refine absurd hclean (Reader.GivesUp.not_clean (r := r.advanced) ?_)
      rcases refuses_returned.mp hx with hx | ⟨v, s, hv, hx⟩
      · exact he.refuses ha.sound (refuses_returnedValue.mp hx).2
      · have ho := (steady_returnedValue he.toLawful).yields ha.sound hv
        obtain ⟨_, rfl⟩ := refuses_endOfStatement.mp hx
        exact .onward_left ho (.reported ho.sound rfl rfl)
  split at h
  · rcases run_single.mp h with ⟨x, hx, hout⟩ | ⟨hx, _⟩
    · obtain ⟨rfl, rfl⟩ := Prod.mk.inj hout
      exact ⟨rfl, derives_expressionStatement he hr hclean hx⟩
    · refine absurd hclean (Reader.GivesUp.not_clean (r := r) ?_)
      rcases refuses_expressionStatement.mp hx with hx | ⟨y, s, hy, hx⟩
      · exact he.refuses hr hx
      · have ho := (he.past hr hy).onward
        obtain ⟨_, rfl⟩ := refuses_endOfStatement.mp hx
        exact .onward_left ho (.reported ho.sound rfl rfl)
  · obtain ⟨_, rfl⟩ := h
    exact absurd hclean (Reader.not_clean_reported ha.sound rfl rfl)

omit he in
theorem clean_settled (h : (r.settled c).Clean lax) : r.Clean lax := by
  unfold Reader.settled at h
  split at h
  · exact h
  · exact h

omit he in
theorem spot_settled : (r.settled c).spot = r.spot := by
  unfold Reader.settled
  split <;> rfl

omit he in
theorem derives_wholeStatement {body : Reading (List Stmt × Bool)} (hsteady : Steady body)
    (hbody : ∀ ⦃r ss whole r'⦄, r.Sound → r'.Clean lax → Run body r (ss, whole) r' →
      whole = true ∧ Derives lax m (.statement c ss) r.spot r'.spot)
    {ss : List Stmt} (hr : r.Sound) (hclean : r'.Clean lax)
    (h : Run (wholeStatement c body) r ss r') : Derives lax m (.statement c ss) r.spot r'.spot := by
  obtain ⟨s, hs, rfl⟩ := run_wholeStatement.mp h
  rw [spot_settled]
  exact carried_of_clean hsteady hbody hr (clean_settled hclean) hs

theorem derives_plainStatement {ss : List Stmt} (hr : r.Sound) (hclean : r'.Clean lax)
    (h : Run (plainStatement e c) r ss r') : Derives lax m (.statement c ss) r.spot r'.spot :=
  derives_wholeStatement (steady_plain he.toLawful) (fun _ _ _ _ => derives_plain he) hr hclean h

omit he in
theorem derives_statements {statement : Context → Reading (List Stmt)}
    (hpast : ∀ ⦃c r ss r'⦄, r.Sound → r.atEnd = false → Run (statement c) r ss r' → r.Past r')
    (hstatement : ∀ ⦃r ss r'⦄, r.Sound → r'.Clean lax → Run (statement c) r ss r' →
      Derives lax m (.statement c ss) r.spot r'.spot)
    {ss : List Stmt} (hr : r.Sound) (hclean : r'.Clean lax)
    (h : Repeats (fun r => !r.atEnd && !r.atAny c.closers) (statement c) r ss r') :
    Derives lax m (.statements c ss) r.spot r'.spot := by
  have hround : ∀ ⦃r ss r'⦄, r.Sound → (!r.atEnd && !r.atAny c.closers) = true →
      Run (statement c) r ss r' → r.Past r' := by
    intro r ss r' hr hm h
    exact hpast hr (by simpa using And.left (by simpa using hm)) h
  induction h with
  | @stop r hm =>
      refine .noStatements ?_
      rw [Reader.blockEnds_spot hr, ← Bool.not_not (r.atEnd || _), Bool.not_or, hm, Bool.not_false]
  | round hm hs hrest ih =>
      have hp := hround hr hm hs
      have ho := hrest.onward hround hp.onward.sound
      refine .statements ?_ (hstatement hr (hclean.of_onward ho) hs) (ih hp.onward.sound hclean)
      rw [Reader.blockEnds_spot hr]
      simpa using hm

omit he in
theorem derives_block {statement : Context → Reading (List Stmt)} {closers : List Keyword}
    (hpast : ∀ ⦃c r ss r'⦄, r.Sound → r.atEnd = false → Run (statement c) r ss r' → r.Past r')
    (hstatement : ∀ ⦃c r ss r'⦄, r.Sound → r'.Clean lax → Run (statement c) r ss r' →
      Derives lax m (.statement c ss) r.spot r'.spot)
    {b : Block} (hr : r.Sound) (hclean : r'.Clean lax)
    (h : Run (block statement c closers) r b r') :
    Derives lax m (.block (c.enter closers) b) r.spot r'.spot := by
  obtain ⟨ss, hss, rfl⟩ := (run_block_repeats hpast hr).mp h
  have hd : Derives lax m (.statements (c.enter closers) ss) r.spot r'.spot :=
    derives_statements hpast (fun _ _ _ hr hclean h => hstatement hr hclean h) hr hclean hss
  obtain ⟨u, hu⟩ : ∃ u, r.spot = ⟨r.line, r.current :: u⟩ := by
    have hhead := Reader.head?_spot hr
    cases hrest : r.spot.rest with
    | nil => simp [hrest] at hhead
    | cons t u =>
        obtain rfl : t = r.current := by simpa [hrest] using hhead
        exact ⟨u, by rw [← hrest]; rfl⟩
  rw [hu] at hd ⊢
  exact .block hd

/-! ### Declarations -/

theorem derives_routine {what : String} {t : Token} {closers : List Keyword} {close : Keyword}
    {x : Routine} (hr : r.Sound) (hclean : r'.Clean lax)
    (h : Run (routine e c what t closers close) r x r') :
    Derives lax m (.routine c closers close x) r.spot r'.spot := by
  obtain ⟨n, s, ps, s₁, b, s₂, hn, hps, hb, closing, hc, rfl⟩ := run_routine.mp h
  have h₁ := steady_nameOrMissing _ hr hn
  have h₂ := steady_parameters h₁.sound hps
  have h₃ := steady_block (fun _ _ _ _ => past_plainStatement he.toLawful) h₂.sound hb
  have h₄ := steady_take? _ h₃.sound hc
  have hclean₃ := hclean.of_onward h₄
  have hclean₂ := hclean₃.of_onward h₃
  obtain ⟨hk, rfl, rfl⟩ := identifier_of_clean hr (hclean₂.of_onward h₂) hn
  rw [Reader.spot_eq hr (Reader.atEnd_of_kind hk (by simp))]
  have hparameters := derives_parameters h₁.sound hclean₂ hps
  have hblock : Derives lax m (.block (c.insideRoutine.enter closers) b) s₁.spot s₂.spot :=
    derives_block (fun _ _ _ _ => past_plainStatement he.toLawful)
      (fun _ _ _ _ => derives_plainStatement he) h₂.sound hclean₃ hb
  refine .routine hk hparameters hblock ?_
  rw [run_keyword?] at hc
  split at hc
  · rename_i hclose
    obtain ⟨rfl, rfl⟩ := hc
    rw [Reader.spot_eq h₃.sound (Reader.atEnd_of_keyword hclose)]
    exact .word hclose
  · rename_i hclose
    obtain ⟨rfl, rfl⟩ := hc
    exact .absent ((Reader.next_spot h₃.sound _).trans (by simpa using hclose))

omit he in
/-- The token of a routine is the word that introduced it. -/
theorem token_routine {what : String} {t : Token} {closers : List Keyword} {close : Keyword}
    {x : Routine} (h : Run (routine e c what t closers close) r x r') :
    ∃ n ps b k, x = ⟨t, n, ps, b, k⟩ := by
  obtain ⟨n, _, ps, _, b, _, _, _, _, k, _, rfl⟩ := run_routine.mp h
  exact ⟨n, ps, b, k, rfl⟩

omit he in
theorem derives_attributes {ms : List Member} {whole : Bool} (hr : r.Sound)
    (hclean : r'.Clean lax) (hk : r.current.isKeyword .kwData = true)
    (h : Run (attributes c) r (ms, whole) r') :
    whole = true ∧ Derives lax m (.member c ms) r.spot r'.spot := by
  obtain ⟨ns, whole', s, hs, h⟩ := run_attributes.mp h
  have ha := Reader.sound_advanced hr
  have hlist := (run_listed (steady_name _) ha).mp hs
  have ho := hlist.onward (steady_name _) ha
  cases whole' with
  | false =>
      obtain ⟨_, rfl⟩ := h
      have hg := hlist.givesUp (steady_name _) (fun _ _ => givesUp_name) ha rfl
      exact absurd hclean hg.not_clean
  | true =>
      obtain ⟨b, hb, hout⟩ := h
      obtain ⟨rfl, hwhole⟩ := Prod.mk.inj hout
      obtain ⟨hcarried, hstops, rfl⟩ := ends_of_clean ho.sound hclean hb
      refine ⟨hwhole ▸ hcarried, ?_⟩
      rw [Reader.spot_eq hr (Reader.atEnd_of_keyword hk)]
      exact .attributes hk (derives_names ha hclean hlist) hstops

theorem derives_member {ms : List Member} {whole : Bool} (hr : r.Sound) (hclean : r'.Clean lax)
    (h : Run (member e c) r (ms, whole) r') :
    whole = true ∧ Derives lax m (.member c ms) r.spot r'.spot := by
  rw [run_member] at h
  split at h
  · rename_i hk
    exact derives_attributes hr hclean hk h
  split at h
  · rename_i hk
    obtain ⟨m, hm, hout⟩ := run_method.mp h
    obtain ⟨rfl, rfl⟩ := Prod.mk.inj hout
    obtain ⟨n, ps, b, k, rfl⟩ := token_routine hm
    refine ⟨rfl, ?_⟩
    rw [Reader.spot_eq hr (Reader.atEnd_of_keyword hk)]
    exact .method hk (derives_routine he (Reader.sound_advanced hr) hclean hm)
  · obtain ⟨_, rfl⟩ := h
    exact absurd hclean (Reader.not_clean_reported hr rfl rfl)

theorem derives_members {ms : List Member} (hr : r.Sound) (hclean : r'.Clean lax)
    (h : Run (members e c) r ms r') : Derives lax m (.members c ms) r.spot r'.spot := by
  have hround := past_memberRound (c := c) he.toLawful
  have hms := (run_members_repeats he.toLawful hr).mp h
  clear h
  induction hms with
  | stop hm => exact .noMembers ((Reader.moreMembers_spot hr).trans hm)
  | round hm hx hrest ih =>
      have hp := hround hr hm hx
      have ho := hrest.onward hround hp.onward.sound
      refine .members ?_ (ih hp.onward.sound hclean)
      exact carried_of_clean (steady_member he.toLawful) (fun _ _ _ _ => derives_member he) hr
        (hclean.of_onward ho) hx

omit he in
theorem derives_parent {parent : Option Name} (hr : r.Sound) (hclean : r'.Clean lax)
    (h : Run parentClass r parent r') : Parent parent r.spot r'.spot := by
  have ha := Reader.sound_advanced hr
  rw [run_parentClass] at h
  split at h
  · rename_i hk
    rcases h with ⟨n, hn, rfl⟩ | ⟨hn, _⟩
    · obtain ⟨hname, rfl, rfl⟩ := yields_name.mp hn
      rw [Reader.spot_eq hr (Reader.atEnd_of_keyword hk),
        Reader.spot_eq ha (Reader.atEnd_of_kind hname (by simp))]
      exact .named hk hname
    · exact absurd hclean (givesUp_name ha hn).not_clean
  · rename_i hk
    obtain ⟨rfl, rfl⟩ := h
    exact .absent ((Reader.next_spot hr _).trans (by simpa using hk))

theorem derives_classDefinition {x : Stmt} (hr : r.Sound) (hclean : r'.Clean lax)
    (hc : c.inRoutine = false) (hk : r.current.isKeyword .kwClass = true)
    (h : Run (classDefinition e c) r x r') : Derives lax m (.statement c [x]) r.spot r'.spot := by
  obtain ⟨n, s, parent, s₁, ms, s₂, hn, hp, hms, closed, hclosing, rfl⟩ := run_classDefinition.mp h
  have ha := Reader.sound_advanced hr
  have h₁ := steady_nameOrMissing _ ha hn
  have h₂ := steady_parentClass h₁.sound hp
  have h₃ := steady_members he.toLawful h₂.sound hms
  have hclean₃ := hclean.of_onward (steady_closing _ _ h₃.sound hclosing)
  have hclean₂ := hclean₃.of_onward h₃
  have hparent := derives_parent h₁.sound hclean₂ hp
  have hmembers := derives_members he h₂.sound hclean₃ hms
  obtain ⟨hend, rfl, rfl⟩ := closing_of_clean h₃.sound hclean hclosing
  obtain ⟨hname, rfl, rfl⟩ := identifier_of_clean ha (hclean₂.of_onward h₂) hn
  rw [Reader.spot_eq h₃.sound (Reader.atEnd_of_keyword hend)] at hmembers
  rw [Reader.spot_eq hr (Reader.atEnd_of_keyword hk),
    Reader.spot_eq ha (Reader.atEnd_of_kind hname (by simp))]
  exact .classDef hc hk hname hparent hmembers hend

theorem derives_function {x : Stmt} (hr : r.Sound) (hclean : r'.Clean lax)
    (hc : c.inRoutine = false) (hopens : opensFunction r = true)
    (h : Run (function e c) r x r') : Derives lax m (.statement c [x]) r.spot r'.spot := by
  obtain ⟨f, hf, rfl⟩ := run_function.mp h
  obtain ⟨n, ps, b, k, rfl⟩ := token_routine hf
  have ha := Reader.sound_advanced hr
  by_cases hs : r.current.isKeyword .kwStatic = true
  · rw [if_pos hs] at hf
    rw [hs, Reader.spot_eq hr (Reader.atEnd_of_keyword hs)]
    have hnext : r.advanced.current.isKeyword .kwFunction = true := by
      rcases Bool.or_eq_true _ _ ▸ hopens with hfun | hboth
      · simp_all [Token.isKeyword]
      · exact (Bool.and_eq_true _ _ ▸ hboth).2
    rw [Reader.spot_eq ha (Reader.atEnd_of_keyword hnext)]
    exact .staticFunction hc hs hnext (derives_routine he (Reader.sound_advanced ha) hclean hf)
  · rw [if_neg hs] at hf
    have hfun : r.current.isKeyword .kwFunction = true := by simpa [opensFunction, hs] using hopens
    rw [Bool.eq_false_iff.mpr hs, Reader.spot_eq hr (Reader.atEnd_of_keyword hfun)]
    exact .function hc hfun (derives_routine he ha hclean hf)

theorem derives_general {ss : List Stmt} {whole : Bool} (hr : r.Sound) (hclean : r'.Clean lax)
    (h : Run (general e c) r (ss, whole) r') :
    whole = true ∧ Derives lax m (.statement c ss) r.spot r'.spot := by
  rw [run_general] at h
  split at h
  · exact derives_plain he hr hclean h
  rename_i hc
  have hc : c.inRoutine = false := by simpa using hc
  split at h
  · rename_i hopens
    obtain ⟨f, hf, hout⟩ := h
    obtain ⟨rfl, rfl⟩ := Prod.mk.inj hout
    exact ⟨rfl, derives_function he hr hclean hc hopens hf⟩
  split at h
  · rename_i hk
    obtain ⟨d, hd, hout⟩ := h
    obtain ⟨rfl, rfl⟩ := Prod.mk.inj hout
    exact ⟨rfl, derives_classDefinition he hr hclean hc hk hd⟩
  · exact derives_plain he hr hclean h

theorem derives_statement {ss : List Stmt} (hr : r.Sound) (hclean : r'.Clean lax)
    (h : Run (statement e c) r ss r') : Derives lax m (.statement c ss) r.spot r'.spot :=
  derives_wholeStatement (steady_general he.toLawful) (fun _ _ _ _ => derives_general he) hr
    hclean h

end Statements

end Grammar

end Clipper
