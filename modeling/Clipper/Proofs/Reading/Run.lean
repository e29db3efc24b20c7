import Clipper.Grammar.Expression

/-!
The judgement in which everything about reading is said: begun at one reader, a
reading ends with a result at another. Each combinator has one rule that takes a run
apart and puts it together again, so that the runs of a production are read off its
text by `simp`.
-/

namespace Clipper.Grammar

variable {α β : Type}

/-- Begun at `r`, the reading ends with `x` at `r'`. -/
def Run (m : Reading α) (r : Reader) (x : α) (r' : Reader) : Prop := m.run r = (x, r')

/-- The attempt is carried through. -/
def Yields (a : Attempt α) (r : Reader) (x : α) (r' : Reader) : Prop := Run a.run r (.ok x) r'

/-- The attempt is given up. -/
def Refuses (a : Attempt α) (r r' : Reader) : Prop := Run a.run r (.error .reported) r'

section Rules

variable {m : Reading α} {a : Attempt α} {r r' r'' : Reader} {x y : α} {z : β}

theorem run_self (m : Reading α) (r : Reader) : Run m r (m.run r).1 (m.run r).2 := rfl

theorem Run.unique {s s' : Reader} (h : Run m r x s) (h' : Run m r y s') : x = y ∧ s = s' :=
  Prod.mk.injEq .. ▸ (Eq.symm h).trans h'

@[simp] theorem run_pure : Run (pure x) r y r' ↔ x = y ∧ r = r' :=
  Prod.mk.injEq .. ▸ Iff.rfl

@[simp] theorem run_bind {f : α → Reading β} :
    Run (m >>= f) r z r'' ↔ ∃ x r', Run m r x r' ∧ Run (f x) r' z r'' := by
  constructor
  · intro h
    exact ⟨(m.run r).1, (m.run r).2, rfl, h⟩
  · rintro ⟨x, r', hm, hf⟩
    simp only [Run, StateT.run_bind] at *
    rw [hm]
    exact hf

@[simp] theorem run_map {f : α → β} :
    Run (f <$> m) r z r' ↔ ∃ x, Run m r x r' ∧ f x = z := by
  rw [← bind_pure_comp, run_bind]
  constructor
  · rintro ⟨x, s, hm, hf⟩
    obtain ⟨rfl, rfl⟩ := run_pure.mp hf
    exact ⟨x, hm, rfl⟩
  · rintro ⟨x, hm, rfl⟩
    exact ⟨x, r', hm, run_pure.mpr ⟨rfl, rfl⟩⟩

@[simp] theorem run_discard {u : Unit} : Run (discard m) r u r' ↔ ∃ x, Run m r x r' := by
  change Run (Functor.mapConst PUnit.unit m) r u r' ↔ _
  rw [LawfulFunctor.map_const, Function.comp_apply, run_map]
  simp

@[simp] theorem run_get {s : Reader} : Run get r s r' ↔ r = s ∧ r = r' :=
  Prod.mk.injEq .. ▸ Iff.rfl

/-- To look at the reader does not move it. -/
theorem run_bind_get {f : Reader → Reading β} : Run (get >>= f) r z r' ↔ Run (f r) r z r' := Iff.rfl

@[simp] theorem run_modifyGet {f : Reader → α × Reader} :
    Run (modifyGet f) r x r' ↔ f r = (x, r') := Iff.rfl

@[simp] theorem run_modify {f : Reader → Reader} {u : Unit} :
    Run (modify f) r u r' ↔ f r = r' :=
  run_modifyGet.trans (by simp)

@[simp] theorem run_ite {p : Prop} [Decidable p] {m n : Reading α} :
    Run (if p then m else n) r x r' ↔ if p then Run m r x r' else Run n r x r' := by
  split <;> rfl

@[simp] theorem run_ok : Run (ExceptT.run a) r (.ok x) r' ↔ Yields a r x r' := Iff.rfl

@[simp] theorem run_error : Run (ExceptT.run a) r (.error .reported) r' ↔ Refuses a r r' :=
  Iff.rfl

@[simp] theorem exists_except {P : Except Refusal α → Prop} :
    (∃ e, P e) ↔ (∃ x, P (.ok x)) ∨ P (.error .reported) := by
  constructor
  · rintro ⟨⟨⟩ | x, h⟩
    · exact .inr h
    · exact .inl ⟨x, h⟩
  · rintro (⟨x, h⟩ | h)
    · exact ⟨_, h⟩
    · exact ⟨_, h⟩

@[simp] theorem exists_unit {P : Unit → Prop} : (∃ u, P u) ↔ P () :=
  ⟨fun ⟨_, h⟩ => h, fun h => ⟨(), h⟩⟩

theorem run_attempt {e : Except Refusal α} (h : Run (ExceptT.run a) r e r') :
    (∃ x, e = .ok x ∧ Yields a r x r') ∨ e = .error .reported ∧ Refuses a r r' := by
  obtain ⟨⟨⟩⟩ | x := e
  · exact .inr ⟨rfl, h⟩
  · exact .inl ⟨x, rfl, h⟩

@[simp] theorem yields_pure : Yields (pure x) r y r' ↔ x = y ∧ r = r' := by
  rw [← run_ok]
  simp

@[simp] theorem refuses_pure : ¬Refuses (pure x) r r' := by
  rw [← run_error]
  simp

@[simp] theorem yields_throw : ¬Yields (throw .reported) r y r' := by
  rw [← run_ok]
  simp

@[simp] theorem refuses_throw : Refuses (throw .reported : Attempt α) r r' ↔ r = r' := by
  rw [← run_error]
  simp

@[simp] theorem yields_bind {f : α → Attempt β} :
    Yields (a >>= f) r z r'' ↔ ∃ x r', Yields a r x r' ∧ Yields (f x) r' z r'' := by
  rw [← run_ok, ExceptT.run_bind, run_bind, exists_except]
  simp

@[simp] theorem refuses_bind {f : α → Attempt β} :
    Refuses (a >>= f) r r'' ↔
      Refuses a r r'' ∨ ∃ x r', Yields a r x r' ∧ Refuses (f x) r' r'' := by
  rw [← run_error, ExceptT.run_bind, run_bind, exists_except]
  simp [or_comm]

@[simp] theorem yields_map {f : α → β} :
    Yields (f <$> a) r z r' ↔ ∃ x, Yields a r x r' ∧ f x = z := by
  rw [← bind_pure_comp, yields_bind]
  constructor
  · rintro ⟨x, s, ha, hf⟩
    obtain ⟨rfl, rfl⟩ := yields_pure.mp hf
    exact ⟨x, ha, rfl⟩
  · rintro ⟨x, ha, rfl⟩
    exact ⟨x, r', ha, yields_pure.mpr ⟨rfl, rfl⟩⟩

@[simp] theorem refuses_map {f : α → β} : Refuses (f <$> a) r r' ↔ Refuses a r r' := by
  rw [← bind_pure_comp, refuses_bind]
  simp

@[simp] theorem yields_lift : Yields (liftM m) r x r' ↔ Run m r x r' := by
  change Run (m >>= fun a => pure (Except.ok a)) r (.ok x) r' ↔ _
  simp

@[simp] theorem refuses_lift : ¬Refuses (liftM m) r r' := by
  change ¬Run (m >>= fun a => pure (Except.ok a)) r (.error Refusal.reported) r'
  simp

@[simp] theorem yields_get {s : Reader} : Yields get r s r' ↔ r = s ∧ r = r' :=
  (yields_lift (m := get)).trans run_get

@[simp] theorem refuses_get : ¬Refuses (get : Attempt Reader) r r' :=
  refuses_lift (m := get)

@[simp] theorem yields_modify {f : Reader → Reader} {u : Unit} :
    Yields (modify f) r u r' ↔ f r = r' :=
  (yields_lift (m := modify f)).trans run_modify

@[simp] theorem refuses_modify {f : Reader → Reader} :
    ¬Refuses (modify f : Attempt PUnit) r r' :=
  refuses_lift (m := modify f)

@[simp] theorem yields_discard {u : Unit} : Yields (discard a) r u r' ↔ ∃ x, Yields a r x r' := by
  change Yields (Functor.mapConst PUnit.unit a) r u r' ↔ _
  rw [LawfulFunctor.map_const, Function.comp_apply, yields_map]
  simp

@[simp] theorem refuses_discard : Refuses (discard a) r r' ↔ Refuses a r r' := by
  change Refuses (Functor.mapConst PUnit.unit a) r r' ↔ _
  rw [LawfulFunctor.map_const, Function.comp_apply, refuses_map]

@[simp] theorem yields_ite {p : Prop} [Decidable p] {a b : Attempt α} :
    Yields (if p then a else b) r x r' ↔ if p then Yields a r x r' else Yields b r x r' := by
  split <;> rfl

@[simp] theorem refuses_ite {p : Prop} [Decidable p] {a b : Attempt α} :
    Refuses (if p then a else b) r r' ↔ if p then Refuses a r r' else Refuses b r r' := by
  split <;> rfl

end Rules

end Clipper.Grammar
