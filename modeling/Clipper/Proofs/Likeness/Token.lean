import Clipper.Proofs.Likeness.LeftOpen

/-!
The readings that take or expect one token, side by side. At the end of the first text
none of them takes a token of the second.
-/

namespace Clipper.Grammar

open Concur

variable {α : Type} {K : Correspondence} {P : Prop} {D : Reader → Prop} {guarded : Prop}
  {c : Context} {t t' : Token} {n n' : Name}

theorem steady_current : Steady current := by
  intro r t s hr h
  obtain ⟨_, rfl⟩ := run_current.mp h
  exact .refl hr

theorem steady_advance : Steady advance := by
  intro r t s hr h
  obtain ⟨_, rfl⟩ := run_advance.mp h
  exact Reader.onward_advanced hr

theorem steady_report {f : Fault} (hf : f.illegal? = none) : Steady (report f) := by
  intro r u s hr h
  exact run_report.mp h ▸ Reader.onward_reported hr f hf

/-- What is begun where `D` holds, and where more is known of what is in front. -/
theorem Concur.intro {β : Type} {R : α → β → Prop} {m : Reading α} {m' : Reading β}
    (hm : Steady m) (hm' : Steady m')
    (h : P → ∀ ⦃r r' x x' s s'⦄, K.Readers r r' → D r → Run m r x s → Run m' r' x' s' →
      R x x' ∧ K.Readers s s') : Concur K P D guarded R m m' :=
  ⟨hm, hm', fun hp _ _ _ _ _ _ hr hd hx hx' _ => h hp hr hd hx hx'⟩

theorem concur_current : Concur K P D guarded K.Meets current current := by
  refine .intro steady_current steady_current fun _ r r' t t' s s' hr _ h h' => ?_
  obtain ⟨rfl, rfl⟩ := run_current.mp h
  obtain ⟨rfl, rfl⟩ := run_current.mp h'
  exact ⟨hr.meets, hr⟩

/-- The token in front where the text goes on. -/
theorem concur_front (hD : P → ∀ r, D r → r.atEnd = false) :
    Concur K P D guarded K.token current current := by
  refine .intro steady_current steady_current fun hp r r' t t' s s' hr hd h h' => ?_
  obtain ⟨rfl, rfl⟩ := run_current.mp h
  obtain ⟨rfl, rfl⟩ := run_current.mp h'
  exact ⟨(hr.steps (hD hp r hd)).token, hr⟩

theorem concur_get : Concur K P D guarded K.Readers get get := by
  have hsteady : Steady get := fun r x s hr h => (run_get.mp h).2 ▸ .refl hr
  refine .intro hsteady hsteady fun _ r r' x x' s s' hr _ h h' => ?_
  obtain ⟨rfl, rfl⟩ := run_get.mp h
  obtain ⟨rfl, rfl⟩ := run_get.mp h'
  exact ⟨hr, hr⟩

/-- A token that is taken, with what is known of it beforehand. -/
theorem concur_advance_of {q : Token → Prop} (hD : P → ∀ r, D r → r.atEnd = false)
    (hq : P → ∀ r, D r → q r.current) :
    Concur K P D guarded (fun t t' => K.token t t' ∧ q t) advance advance := by
  refine .intro steady_advance steady_advance fun hp r r' t t' s s' hr hd h h' => ?_
  obtain ⟨rfl, rfl⟩ := run_advance.mp h
  obtain ⟨rfl, rfl⟩ := run_advance.mp h'
  exact ⟨⟨(hr.steps (hD hp r hd)).token, hq hp r hd⟩, hr.advanced (hD hp r hd)⟩

theorem concur_advance (hD : P → ∀ r, D r → r.atEnd = false) :
    Concur K P D guarded K.token advance advance :=
  (concur_advance_of (q := fun _ => True) hD fun _ _ _ => trivial).result fun _ _ _ => And.left

/-- A token of some kind, of which a declaring word is none. -/
theorem concur_take? {q : TokenKind → Bool} (hend : q .endOfInput = false)
    (hq : ∀ k ∈ declaring, q (.keyword k) = false) :
    Concur K P D guarded (Option.Rel K.token) (take? fun t => q t.kind)
      (take? fun t => q t.kind) := by
  refine .intro (steady_take? _) (steady_take? _) fun _ r r' t t' s s' hr _ h h' => ?_
  have hsame : q r.current.kind = q r'.current.kind :=
    hr.ask fun k hk => by rw [hq k hk, hend]
  rw [run_take?] at h h'
  rw [← hsame] at h'
  split at h
  · rename_i htake
    rw [if_pos htake] at h'
    obtain ⟨rfl, rfl⟩ := h
    obtain ⟨rfl, rfl⟩ := h'
    have hopen : r.atEnd = false := Reader.atEnd_of_kind rfl fun hk => by simp [hk, hend] at htake
    exact ⟨.some (hr.steps hopen).token, hr.advanced hopen⟩
  · rename_i htake
    rw [if_neg htake] at h'
    obtain ⟨rfl, rfl⟩ := h
    obtain ⟨rfl, rfl⟩ := h'
    exact ⟨.none, hr⟩

theorem concur_keyword? (k : Keyword) (hk : k ∉ declaring) :
    Concur K P D guarded (Option.Rel K.token) (keyword? k) (keyword? k) :=
  concur_take? (q := (· == .keyword k)) (by simp) fun k' hk' => by
    have hne : k' ≠ k := fun h => hk (h ▸ hk')
    simp [hne]

theorem concur_punctuation? (p : Punctuation) :
    Concur K P D guarded (Option.Rel K.token) (punctuation? p) (punctuation? p) :=
  concur_take? (q := (· == .punctuation p)) (by simp) (by simp)

theorem concur_report {f f' : Fault} (hlegal : f.illegal? = none) (hlegal' : f'.illegal? = none)
    (hf : P → K.Faults f f') :
    Concur K P D guarded Eq (report f) (report f') := by
  refine .intro (steady_report hlegal) (steady_report hlegal') fun hp r r' u u' s s' hr _ h h' => ?_
  obtain rfl := run_report.mp h
  obtain rfl := run_report.mp h'
  exact ⟨rfl, hr.reported (hf hp)⟩

/-- Gives up at the token in front. -/
theorem concur_refuse {R : α → α → Prop} {f f' : Fault} (hlegal : f.illegal? = none)
    (hlegal' : f'.illegal? = none) (hf : P → K.Faults f f') :
    Concur K P D guarded (Carried R) (refuse f : Attempt α).run (refuse f').run :=
  (lift (concur_report hlegal hlegal' hf)).andThen fun _ _ => .throw

theorem concur_skipLine : Concur K P D guarded Eq (skipLine c) (skipLine c) := by
  have hsteady : Steady (skipLine c) := fun r u s hr h =>
    run_skipLine.mp h ▸ Reader.onward_lineSkipped hr
  refine .intro hsteady hsteady fun _ r r' u u' s s' hr _ h h' => ?_
  obtain rfl := run_skipLine.mp h
  obtain rfl := run_skipLine.mp h'
  exact ⟨rfl, hr.lineSkipped c⟩

theorem concur_refuseDepth {R : α → α → Prop} :
    Concur K P D guarded (Carried R) (refuseDepth : Attempt α).run refuseDepth.run := by
  have hsteady : Steady (refuseDepth : Attempt α).run :=
    .of_attempt (fun _ _ _ _ h => absurd h yields_refuseDepth) fun r s hr h =>
      refuses_refuseDepth.mp h ▸ Reader.onward_silenced hr
  refine .intro hsteady hsteady fun _ r r' e e' s s' hr _ h h' => ?_
  rcases run_attempt h with ⟨_, -, h⟩ | ⟨rfl, h⟩
  · exact absurd h yields_refuseDepth
  rcases run_attempt h' with ⟨_, -, h'⟩ | ⟨rfl, h'⟩
  · exact absurd h' yields_refuseDepth
  obtain rfl := refuses_refuseDepth.mp h
  obtain rfl := refuses_refuseDepth.mp h'
  exact ⟨.error, hr.silenced⟩

theorem concur_expectPunctuation (p : Punctuation) :
    Concur K P D guarded (Carried Eq) (expectPunctuation p).run (expectPunctuation p).run := by
  unfold expectPunctuation
  refine (lift (concur_punctuation? p)).andThen fun o o' => .attempt_ite ?_ ?_ ?_
  · rintro ⟨_, h⟩
    cases h <;> rfl
  · exact (lift concur_current).andThen fun t t' => concur_refuse rfl rfl fun h => .expected _ h.2
  · exact .yield fun _ => rfl

theorem concur_expectKeyword (k : Keyword) (hk : k ∉ declaring) :
    Concur K P D guarded (Carried Eq) (expectKeyword k).run (expectKeyword k).run := by
  unfold expectKeyword
  refine (lift (concur_keyword? k hk)).andThen fun o o' => .attempt_ite ?_ ?_ ?_
  · rintro ⟨_, h⟩
    cases h <;> rfl
  · exact (lift concur_current).andThen fun t t' => concur_refuse rfl rfl fun h => .expected _ h.2
  · exact .yield fun _ => rfl

theorem concur_name (what : String) :
    Concur K P D guarded (Carried K.Names) (name what).run (name what).run := by
  refine .intro (steady_name what) (steady_name what) fun _ r r' e e' s s' hr _ h h' => ?_
  rcases run_attempt h with ⟨n, rfl, h⟩ | ⟨rfl, h⟩
  · obtain ⟨hk, rfl, rfl⟩ := yields_name.mp h
    rcases run_attempt h' with ⟨n', rfl, h'⟩ | ⟨rfl, h'⟩
    · obtain ⟨-, rfl, rfl⟩ := yields_name.mp h'
      have hopen := Reader.atEnd_of_kind hk (by simp)
      exact ⟨.ok (.written (hr.steps hopen).token hk), hr.advanced hopen⟩
    · exact absurd (hr.identifier_iff.mp hk) (refuses_name.mp h').1
  · obtain ⟨hk, rfl⟩ := refuses_name.mp h
    rcases run_attempt h' with ⟨n', rfl, h'⟩ | ⟨rfl, h'⟩
    · exact absurd (hr.identifier_iff.mpr (yields_name.mp h').1) hk
    · obtain ⟨-, rfl⟩ := refuses_name.mp h'
      exact ⟨.error, hr.reported (.expected what hr.meets)⟩

theorem concur_nameOrMissing (what : String) :
    Concur K P D guarded K.Names (nameOrMissing what) (nameOrMissing what) :=
  (concur_name what).bind (.except (fun _ _ => .pure And.right)
    (concur_current.bind fun _ _ => .pure fun h => .missing h.2))

theorem concur_closing {k : Keyword} (hk : k ∉ declaring) (ht : P → K.token t t') :
    Concur K P D guarded (Option.Rel K.token) (closing k t) (closing k t') :=
  (concur_keyword? k hk).bind (.option (fun _ _ => .pure fun h => .some h.2)
    (concur_current.bind fun _ _ =>
      (concur_report rfl rfl fun h => .unclosed _ (ht h.1) h.2).bind fun _ _ => .pure fun _ => .none))

/-- A list up to its closing delimiter. Its items are begun only if it is not closed at once. -/
theorem concur_listUpTo {close : Punctuation} {item : Attempt α} {R : α → α → Prop}
    (hitem : Concur K P D guarded (Carried R) item.run item.run)
    (hnext : ∀ ⦃r x s⦄, D r → Yields item r x s → s.current.isPunctuation .comma = true →
      D s.advanced) :
    Concur K P (fun r => r.current.isPunctuation close = false → D r) guarded
      (Carried (List.Forall₂ R)) (listUpTo close item).run (listUpTo close item).run := by
  have hitems : Concur K P (fun r => r.current.isPunctuation close = false → D r) guarded
      (Carried (List.Forall₂ R)) (itemsBefore close item).run (itemsBefore close item).run := by
    refine (lift concur_current).then_of
      (E := fun t s => t.isPunctuation close = false → D s) (fun t t' => ?_) ?_
    · refine .attempt_ite (fun h => ?_) (.yield fun _ => .nil) ?_
      · have hsame := h.2.ask (p := (· == .punctuation close)) (by simp)
        exact Bool.eq_iff_iff.mp hsame
      · have hlist : Concur K ((P ∧ K.Meets t t') ∧ ¬t.isPunctuation close = true)
            (fun s => t.isPunctuation close = false → D s) guarded (Listed R) (listed item)
            (listed item) :=
          (Concur.listed hitem hnext).weaken (fun h => h.1.1) (fun hp r hd => hd (by simpa using hp.2))
            fun _ _ _ => id
        exact (lift hlist).andThen fun xs xs' =>
          .attempt_ite (fun h => by rw [h.2.2]) (.yield fun h => h.1.2.1) .throw
    · rintro _ r t s hd h
      obtain ⟨rfl, rfl⟩ := run_current.mp (yields_lift.mp h)
      exact hd
  exact hitems.andThen fun xs xs' => (concur_expectPunctuation close).andThen fun _ _ =>
    .yield fun h => h.1.2

end Clipper.Grammar
