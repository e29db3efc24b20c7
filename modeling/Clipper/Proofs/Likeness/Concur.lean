import Clipper.Proofs.Likeness.Reader

/-!
Two readings side by side. Begun at readers that have come equally far, they give related
results and end equally far. `Concur` has a rule for each combinator, by which the readings
of the grammar are compared part by part, without taking their runs apart.

Where the first text ends inside a block that its closing words do not guard, the second
reading goes on alone. So the readings in such a block are compared only if the first one
ends before its text does.
-/

namespace Clipper

theorem Reader.Onward.open {r s : Reader} (h : r.Onward s) (hr : r.Sound)
    (hs : s.atEnd = false) : r.atEnd = false := by
  cases hend : r.atEnd with
  | false => rfl
  | true =>
      have hnil : s.pending = [] := by
        have hsuffix := h.pending
        rwa [pending_of_atEnd hr hend, List.suffix_nil] at hsuffix
      exact (atEnd_of_pending h.sound hnil).symm.trans hs

namespace Grammar

variable {α α' β β' : Type} {K : Correspondence} {P Q : Prop} {D D' : Reader → Prop}
  {guarded : Prop} {R R' : α → α' → Prop} {S : β → β' → Prop}

theorem Steady.pure (x : α) : Steady (pure x) := by
  intro r y r' hr h
  obtain ⟨_, rfl⟩ := run_pure.mp h
  exact .refl hr

theorem Steady.bind {m : Reading α} {f : α → Reading β} (hm : Steady m)
    (hf : ∀ x, Steady (f x)) : Steady (m >>= f) := by
  intro r y r' hr h
  obtain ⟨x, s, hx, hy⟩ := run_bind.mp h
  have ho := hm hr hx
  exact ho.trans (hf x ho.sound hy)

/-- If `P` holds, and `D` of the reader at which the first reading begins, both readings have
related results. Where the block is not `guarded` the first text has to go on behind them. -/
structure Concur (K : Correspondence) (P : Prop) (D : Reader → Prop) (guarded : Prop)
    (R : α → α' → Prop) (m : Reading α) (m' : Reading α') : Prop where
  steady : Steady m
  steady' : Steady m'
  alike : P → ∀ ⦃r r' x x' s s'⦄, K.Readers r r' → D r → Run m r x s → Run m' r' x' s' →
    guarded ∨ s.atEnd = false → R x x' ∧ K.Readers s s'

/-- Anywhere. -/
abbrev Anywhere : Reader → Prop := fun _ => True

/-- Where the text goes on. -/
abbrev Open : Reader → Prop := fun r => r.atEnd = false

namespace Concur

/-! ### Combinators -/

theorem weaken {m : Reading α} {m' : Reading α'} (h : Concur K P D guarded R m m')
    (hP : Q → P) (hD : Q → ∀ r, D' r → D r) (hR : ∀ x x', P → R x x' → R' x x') :
    Concur K Q D' guarded R' m m' where
  steady := h.steady
  steady' := h.steady'
  alike := fun hq _ _ _ _ _ _ hr hd hx hx' hs =>
    have ⟨hxx, hss⟩ := h.alike (hP hq) hr (hD hq _ hd) hx hx' hs
    ⟨hR _ _ (hP hq) hxx, hss⟩

theorem given {m : Reading α} {m' : Reading α'} (h : Concur K P D guarded R m m')
    (hP : Q → P) : Concur K Q D guarded R m m' :=
  h.weaken hP (fun _ _ => id) fun _ _ _ => id

theorem begun {m : Reading α} {m' : Reading α'} (h : Concur K P D guarded R m m')
    (hD : P → ∀ r, D' r → D r) : Concur K P D' guarded R m m' :=
  h.weaken id hD fun _ _ _ => id

theorem result {m : Reading α} {m' : Reading α'} (h : Concur K P D guarded R m m')
    (hR : ∀ x x', P → R x x' → R' x x') : Concur K P D guarded R' m m' :=
  h.weaken id (fun _ _ => id) hR

/-- Readings that are never compared. -/
theorem absurd {m : Reading α} {m' : Reading α'} (hm : Steady m) (hm' : Steady m')
    (h : ¬P) : Concur K P D guarded R m m' :=
  ⟨hm, hm', fun hp => False.elim (h hp)⟩

/-- What `P` says may be used to compare steady readings. -/
theorem when {m : Reading α} {m' : Reading α'} (hm : Steady m) (hm' : Steady m')
    (h : P → Concur K P D guarded R m m') : Concur K P D guarded R m m' :=
  ⟨hm, hm', fun hp => (h hp).alike hp⟩

theorem pure {x : α} {x' : α'} (h : P → R x x') :
    Concur K P D guarded R (pure x) (pure x') where
  steady := .pure x
  steady' := .pure x'
  alike := fun hp _ _ _ _ _ _ hr _ hx hx' _ => by
    obtain ⟨rfl, rfl⟩ := run_pure.mp hx
    obtain ⟨rfl, rfl⟩ := run_pure.mp hx'
    exact ⟨h hp, hr⟩

/-- What holds of the reader behind the first part is passed on to the second. -/
theorem bind_of {m : Reading α} {m' : Reading α'} {f : α → Reading β} {f' : α' → Reading β'}
    {E : α → Reader → Prop} (hm : Concur K P D guarded R m m')
    (hf : ∀ x x', Concur K (P ∧ R x x') (E x) guarded S (f x) (f' x'))
    (hE : P → ∀ ⦃r x s⦄, D r → Run m r x s → E x s) :
    Concur K P D guarded S (m >>= f) (m' >>= f') where
  steady := by
    intro r y s hr h
    obtain ⟨x, t, hx, hy⟩ := run_bind.mp h
    obtain ⟨x', -⟩ := m'.run r
    have ho := hm.steady hr hx
    exact ho.trans ((hf x x').steady ho.sound hy)
  steady' := by
    intro r y s hr h
    obtain ⟨x', t, hx, hy⟩ := run_bind.mp h
    obtain ⟨x, -⟩ := m.run r
    have ho := hm.steady' hr hx
    exact ho.trans ((hf x x').steady' ho.sound hy)
  alike := fun hp r r' z z' s s' hr hd h h' hs => by
    obtain ⟨x, t, hx, hy⟩ := run_bind.mp h
    obtain ⟨x', t', hx', hy'⟩ := run_bind.mp h'
    have hsound := (hm.steady hr.sound hx).sound
    have hopen : guarded ∨ t.atEnd = false :=
      hs.imp id (((hf x x').steady hsound hy).open hsound)
    obtain ⟨hR, ht⟩ := hm.alike hp hr hd hx hx' hopen
    exact (hf x x').alike ⟨hp, hR⟩ ht (hE hp hd hx) hy hy' hs

theorem bind {m : Reading α} {m' : Reading α'} {f : α → Reading β} {f' : α' → Reading β'}
    (hm : Concur K P D guarded R m m')
    (hf : ∀ x x', Concur K (P ∧ R x x') Anywhere guarded S (f x) (f' x')) :
    Concur K P D guarded S (m >>= f) (m' >>= f') :=
  hm.bind_of hf fun _ _ _ _ _ _ => trivial

theorem map {m : Reading α} {m' : Reading α'} {f : α → β} {f' : α' → β'}
    (hm : Concur K P D guarded R m m') (h : ∀ x x', P → R x x' → S (f x) (f' x')) :
    Concur K P D guarded S (f <$> m) (f' <$> m') := by
  rw [← bind_pure_comp, ← bind_pure_comp]
  exact hm.bind fun x x' => .pure fun hp => h x x' hp.1 hp.2

theorem discard {m : Reading α} {m' : Reading α'} (hm : Concur K P D guarded R m m') :
    Concur K P D guarded Eq (discard m) (discard m') := by
  change Concur K P D guarded Eq (Functor.mapConst PUnit.unit m) (Functor.mapConst PUnit.unit m')
  rw [LawfulFunctor.map_const, LawfulFunctor.map_const]
  exact hm.map fun _ _ _ _ => rfl

theorem ite {p p' : Prop} [Decidable p] [Decidable p'] {m n : Reading α} {m' n' : Reading α'}
    (hp : P → (p ↔ p')) (hm : Concur K (P ∧ p) D guarded R m m')
    (hn : Concur K (P ∧ ¬p) D guarded R n n') :
    Concur K P D guarded R (if p then m else n) (if p' then m' else n') where
  steady := by
    split
    · exact hm.steady
    · exact hn.steady
  steady' := by
    split
    · exact hm.steady'
    · exact hn.steady'
  alike := fun h r r' x x' s s' hr hd hx hx' hs => by
    by_cases hcase : p
    · rw [if_pos hcase] at hx
      rw [if_pos ((hp h).mp hcase)] at hx'
      exact hm.alike ⟨h, hcase⟩ hr hd hx hx' hs
    · rw [if_neg hcase] at hx
      rw [if_neg fun h' => hcase ((hp h).mpr h')] at hx'
      exact hn.alike ⟨h, hcase⟩ hr hd hx hx' hs

/-- Readings that go on differently with a token than without one. -/
theorem option {f f' : Option α → Reading β} {R : α → α → Prop} {S : β → β → Prop}
    {E : Option α → Reader → Prop}
    (hsome : ∀ x x', Concur K (P ∧ R x x') (E (some x)) guarded S (f (some x)) (f' (some x')))
    (hnone : Concur K P (E none) guarded S (f none) (f' none)) (o o' : Option α) :
    Concur K (P ∧ Option.Rel R o o') (E o) guarded S (f o) (f' o') := by
  cases o with
  | none =>
      cases o' with
      | none => exact hnone.given And.left
      | some x' => exact absurd hnone.steady (hsome x' x').steady' fun h => nomatch h.2
  | some x =>
      cases o' with
      | none => exact absurd (hsome x x).steady hnone.steady' fun h => nomatch h.2
      | some x' =>
          refine (hsome x x').given fun h => ⟨h.1, ?_⟩
          cases h.2
          assumption

/-! ### Attempts -/

/-- Both attempts are carried through or both are given up. -/
inductive Carried (R : α → α' → Prop) : Except Refusal α → Except Refusal α' → Prop
  | ok {x : α} {x' : α'} : R x x' → Carried R (.ok x) (.ok x')
  | error : Carried R (.error .reported) (.error .reported)

/-- Behind an attempt, by its outcome. What holds of the reader behind it is known only if it
was carried through. -/
theorem except_of {f f' : Except Refusal α → Reading β} {R : α → α → Prop} {S : β → β → Prop}
    {E : α → Reader → Prop}
    (hok : ∀ x x', Concur K (P ∧ R x x') (E x) guarded S (f (.ok x)) (f' (.ok x')))
    (herror : Concur K P Anywhere guarded S (f (.error .reported)) (f' (.error .reported)))
    (e e' : Except Refusal α) :
    Concur K (P ∧ Carried R e e') (fun s => ∀ x, e = .ok x → E x s) guarded S (f e) (f' e') := by
  obtain ⟨⟨⟩⟩ | x := e
  · obtain ⟨⟨⟩⟩ | x' := e'
    · exact (herror.given And.left).begun fun _ _ _ => trivial
    · exact absurd herror.steady (hok x' x').steady' fun h => nomatch h.2
  · obtain ⟨⟨⟩⟩ | x' := e'
    · exact absurd (hok x x).steady herror.steady' fun h => nomatch h.2
    · refine ((hok x x').given fun h => ⟨h.1, ?_⟩).begun fun _ _ h => h x rfl
      cases h.2
      assumption

theorem except {f f' : Except Refusal α → Reading β} {R : α → α → Prop} {S : β → β → Prop}
    (hok : ∀ x x', Concur K (P ∧ R x x') Anywhere guarded S (f (.ok x)) (f' (.ok x')))
    (herror : Concur K P Anywhere guarded S (f (.error .reported)) (f' (.error .reported)))
    (e e' : Except Refusal α) :
    Concur K (P ∧ Carried R e e') Anywhere guarded S (f e) (f' e') :=
  (except_of hok herror e e').begun fun _ _ _ _ _ => trivial

theorem yield {x : α} {x' : α'} (h : P → R x x') :
    Concur K P D guarded (Carried R) (Pure.pure x : Attempt α).run
      (Pure.pure x' : Attempt α').run :=
  .pure fun hp => .ok (h hp)

theorem throw : Concur K P D guarded (Carried R) (throw .reported : Attempt α).run
    (throw .reported : Attempt α').run :=
  .pure fun _ => .error

theorem lift {m : Reading α} {m' : Reading α'} (h : Concur K P D guarded R m m') :
    Concur K P D guarded (Carried R) (liftM m : Attempt α).run (liftM m' : Attempt α').run :=
  h.bind fun _ _ => .pure fun hp => .ok hp.2

theorem then_of {a a' : Attempt α} {f f' : α → Attempt β} {R : α → α → Prop} {S : β → β → Prop}
    {E : α → Reader → Prop} (ha : Concur K P D guarded (Carried R) a.run a'.run)
    (hf : ∀ x x', Concur K (P ∧ R x x') (E x) guarded (Carried S) (f x).run (f' x').run)
    (hE : P → ∀ ⦃r x s⦄, D r → Yields a r x s → E x s) :
    Concur K P D guarded (Carried S) (a >>= f).run (a' >>= f').run := by
  rw [ExceptT.run_bind, ExceptT.run_bind]
  refine ha.bind_of (except_of hf (.pure fun _ => .error)) ?_
  rintro hp r e s hd h x rfl
  exact hE hp hd h

theorem andThen {a a' : Attempt α} {f f' : α → Attempt β} {R : α → α → Prop}
    {S : β → β → Prop} (ha : Concur K P D guarded (Carried R) a.run a'.run)
    (hf : ∀ x x', Concur K (P ∧ R x x') Anywhere guarded (Carried S) (f x).run (f' x').run) :
    Concur K P D guarded (Carried S) (a >>= f).run (a' >>= f').run :=
  ha.then_of hf fun _ _ _ _ _ _ => trivial

theorem attempt_discard {a a' : Attempt α} {R : α → α → Prop}
    (ha : Concur K P D guarded (Carried R) a.run a'.run) :
    Concur K P D guarded (Carried Eq) (Functor.discard a).run (Functor.discard a').run := by
  change Concur K P D guarded (Carried Eq) (Functor.mapConst PUnit.unit a).run
    (Functor.mapConst PUnit.unit a').run
  simp only [LawfulFunctor.map_const, Function.comp_apply, ← bind_pure_comp]
  exact ha.andThen fun _ _ => .yield fun _ => rfl

theorem attempt_ite {p p' : Prop} [Decidable p] [Decidable p'] {a b : Attempt α}
    {a' b' : Attempt α'} (hp : P → (p ↔ p'))
    (ha : Concur K (P ∧ p) D guarded (Carried R) a.run a'.run)
    (hb : Concur K (P ∧ ¬p) D guarded (Carried R) b.run b'.run) :
    Concur K P D guarded (Carried R) (if p then a else b).run (if p' then a' else b').run := by
  have h := Concur.ite hp ha hb
  split <;> split <;> simp_all

theorem attempt_option {f f' : Option α → Attempt β} {R : α → α → Prop} {S : β → β → Prop}
    {E : Option α → Reader → Prop}
    (hsome : ∀ x x', Concur K (P ∧ R x x') (E (some x)) guarded (Carried S) (f (some x)).run
      (f' (some x')).run)
    (hnone : Concur K P (E none) guarded (Carried S) (f none).run (f' none).run)
    (o o' : Option α) :
    Concur K (P ∧ Option.Rel R o o') (E o) guarded (Carried S) (f o).run (f' o').run :=
  option (f := fun o => (f o).run) hsome hnone o o'

/-! ### Loops -/

theorem repeated {more : Reader → Bool} {body : Reading (List α)}
    {R : α → α → Prop} (hopen : ∀ r, more r = true → r.atEnd = false)
    (hpast : ∀ ⦃r xs s⦄, r.Sound → more r = true → Run body r xs s → r.Past s)
    (hmore : P → ∀ ⦃r r'⦄, K.Readers r r' → guarded ∨ r.atEnd = false → more r = more r')
    (hbody : Concur K P (more · = true) guarded (List.Forall₂ R) body body) :
    Concur K P D guarded (List.Forall₂ R) (Grammar.repeated more body)
      (Grammar.repeated more body) := by
  have hsteady : Steady (Grammar.repeated more body) := fun r xs s hr h =>
    ((run_repeated hpast hr).mp h).onward hpast hr
  refine ⟨hsteady, hsteady, fun hp r r' xs xs' s s' hr hd h h' hs => ?_⟩
  have hrun := (run_repeated hpast hr.sound).mp h
  have hrun' := (run_repeated hpast hr.sound').mp h'
  clear h h' hd
  induction hrun generalizing r' xs' with
  | stop hm =>
      cases hrun' with
      | stop => exact ⟨.nil, hr⟩
      | round hm' => simp [← hmore hp hr hs, hm] at hm'
  | @round r t s xs ys hm hx hrest ih =>
      have hm' := hmore hp hr (.inr (hopen _ hm)) ▸ hm
      cases hrun' with
      | stop hn => simp [hn] at hm'
      | @round _ t' _ xs' ys' _ hx' hrest' =>
          have ht := (hpast hr.sound hm hx).onward.sound
          have hgo := hs.imp id ((hrest.onward hpast ht).open ht)
          obtain ⟨hxs, ht⟩ := hbody.alike hp hr hm hx hx' hgo
          obtain ⟨hys, hss⟩ := ih _ _ ht hs hrest'
          exact ⟨List.rel_append hxs hys, hss⟩

/-- The parts of a list and whether it was carried through. -/
def Listed (R : α → α' → Prop) (xs : List α × Bool) (ys : List α' × Bool) : Prop :=
  List.Forall₂ R xs.1 ys.1 ∧ xs.2 = ys.2

theorem listed {item : Attempt α} {R : α → α → Prop}
    (hitem : Concur K P D guarded (Carried R) item.run item.run)
    (hnext : ∀ ⦃r x s⦄, D r → Yields item r x s → s.current.isPunctuation .comma = true →
      D s.advanced) :
    Concur K P D guarded (Listed R) (Grammar.listed item) (Grammar.listed item) := by
  have hsteady := steady_listed hitem.steady
  refine ⟨hsteady, hsteady, fun hp r r' xs xs' s s' hr hd h h' hs => ?_⟩
  obtain ⟨xs, whole⟩ := xs
  obtain ⟨xs', whole'⟩ := xs'
  have hrun := (run_listed hitem.steady hr.sound).mp h
  have hrun' := (run_listed hitem.steady hr.sound').mp h'
  clear h h'
  -- What a first item leaves behind is the same for both.
  have hfirst : ∀ ⦃r r' e e' s s'⦄, K.Readers r r' → D r → Run item.run r e s →
      Run item.run r' e' s' → guarded ∨ s.atEnd = false →
        Carried R e e' ∧ K.Readers s s' := fun _ _ _ _ _ _ hr hd => hitem.alike hp hr hd
  induction hrun generalizing r' xs' whole' with
  | refused hx =>
      cases hrun' with
      | refused hx' =>
          obtain ⟨_, hss⟩ := hfirst hr hd (run_error.mpr hx) (run_error.mpr hx') hs
          exact ⟨⟨.nil, rfl⟩, hss⟩
      | last hx' => exact nomatch (hfirst hr hd (run_error.mpr hx) (run_ok.mpr hx') hs).1
      | more hx' => exact nomatch (hfirst hr hd (run_error.mpr hx) (run_ok.mpr hx') hs).1
  | last hx hcomma =>
      cases hrun' with
      | refused hx' => exact nomatch (hfirst hr hd (run_ok.mpr hx) (run_error.mpr hx') hs).1
      | last hx' =>
          obtain ⟨⟨hR⟩, hss⟩ := hfirst hr hd (run_ok.mpr hx) (run_ok.mpr hx') hs
          exact ⟨⟨.cons hR .nil, rfl⟩, hss⟩
      | more hx' hcomma' =>
          obtain ⟨_, hss⟩ := hfirst hr hd (run_ok.mpr hx) (run_ok.mpr hx') hs
          simp [hss.isPunctuation, hcomma'] at hcomma
  | @more r t s x xs whole hx hcomma hrest ih =>
      have hopen := Reader.atEnd_of_punctuation hcomma
      cases hrun' with
      | refused hx' =>
          exact nomatch (hfirst hr hd (run_ok.mpr hx) (run_error.mpr hx') (.inr hopen)).1
      | last hx' hcomma' =>
          obtain ⟨_, hss⟩ := hfirst hr hd (run_ok.mpr hx) (run_ok.mpr hx') (.inr hopen)
          simp [hss.isPunctuation, hcomma'] at hcomma
      | more hx' hcomma' hrest' =>
          obtain ⟨⟨hR⟩, hss⟩ := hfirst hr hd (run_ok.mpr hx) (run_ok.mpr hx') (.inr hopen)
          obtain ⟨⟨hlist, hwhole⟩, hlast⟩ :=
            ih _ (hss.advanced hopen) (hnext hd hx hcomma) hs _ _ hrest'
          exact ⟨⟨.cons hR hlist, hwhole⟩, hlast⟩

theorem recovering {c : Context} {body : Reading (List α × Bool)} {R : α → α → Prop}
    (hopen : ∀ r, D r → r.atEnd = false) (hbody : Concur K P D guarded (Listed R) body body) :
    Concur K P D guarded (List.Forall₂ R) (Grammar.recovering c body)
      (Grammar.recovering c body) := by
  have hsteady : Steady (Grammar.recovering c body) := by
    intro r xs s hr h
    obtain ⟨whole, t, hx, rfl⟩ := run_recovering.mp h
    have ho := hbody.steady hr hx
    split
    · exact ho
    · exact ho.trans (Reader.onward_recovered ho.sound _)
  refine ⟨hsteady, hsteady, fun hp r r' xs xs' s s' hr hd h h' hs => ?_⟩
  obtain ⟨whole, t, hx, rfl⟩ := run_recovering.mp h
  obtain ⟨whole', t', hx', rfl⟩ := run_recovering.mp h'
  have ho := hbody.steady hr.sound hx
  have ho' := hbody.steady' hr.sound' hx'
  have hgo : guarded ∨ t.atEnd = false := by
    refine hs.imp id fun hend => ?_
    split at hend
    · exact hend
    · exact (Reader.onward_recovered ho.sound _).open ho.sound hend
  obtain ⟨⟨hR, rfl⟩, ht⟩ := hbody.alike hp hr hd hx hx' hgo
  refine ⟨hR, ?_⟩
  split
  · exact ht
  · exact hr.recovered (hopen r hd) ho ho' ht c

theorem single {a a' : Attempt α} {R : α → α → Prop}
    (ha : Concur K P D guarded (Carried R) a.run a'.run) :
    Concur K P D guarded (Listed R) (Grammar.single a) (Grammar.single a') :=
  ha.bind (.except (fun _ _ => .pure fun h => ⟨.cons h.2 .nil, rfl⟩)
    (.pure fun _ => ⟨.nil, rfl⟩))

theorem succeeds {a a' : Attempt Unit} {R : Unit → Unit → Prop}
    (ha : Concur K P D guarded (Carried R) a.run a'.run) :
    Concur K P D guarded Eq (Grammar.succeeds a) (Grammar.succeeds a') :=
  ha.bind (.except (fun _ _ => .pure fun _ => rfl) (.pure fun _ => rfl))

end Concur

end Grammar

end Clipper
