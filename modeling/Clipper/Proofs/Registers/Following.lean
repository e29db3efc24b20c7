import Clipper.Proofs.Depth.Deepening
import Clipper.Proofs.Grammar.Closers
import Clipper.Proofs.Registers.Machine

/-!
The machine reads what the grammar reads. Begun with the registers that a context stands for, a
production of the machine ends with the result and the reader of the grammar's production, and
with the registers as it found them. That is shown part by part, with a rule for each
combinator; what the machine notes on the way is good in the sense of `Machine.Fair`.
-/

namespace Clipper

namespace Passage

/-- On the way a token was taken that is not the end of the text. -/
def Takes (p : Passage) : Prop :=
  ∃ taken, taken ≠ [] ∧ p.entry.reader.pending = taken ++ p.exit.reader.pending

/-- In the end the registers are as they were on entry. -/
def Restores (p : Passage) : Prop := p.exit.registers = p.entry.registers

theorem takes_of_past {p : Passage} (h : p.entry.reader.Past p.exit.reader) : p.Takes := by
  obtain ⟨taken, htaken⟩ := h.onward.pending
  refine ⟨taken, fun hnil => ?_, htaken.symm⟩
  have hshorter := h.shorter
  rw [← htaken, hnil] at hshorter
  exact Nat.lt_irrefl _ hshorter

end Passage

/-- What holds of the machine at any moment. -/
structure Machine.Fair (w : Machine) : Prop where
  sound : w.reader.Sound
  statements : ∀ p ∈ w.statements, p.Takes ∧ p.Restores
  members : ∀ p ∈ w.members, p.Takes

namespace Machine

variable {α β : Type} {w : Machine} {g g' g'' : Registers} {M : Work α} {m : Reading α}
  {F : α → Work β} {f : α → Reading β}

/-- From this moment on the machine reads what `m` reads, and the registers end as `g`. -/
structure Ends (w : Machine) (M : Work α) (m : Reading α) (g : Registers) : Prop where
  run : m.run w.reader = ((M.run w).1, (M.run w).2.reader)
  registers : (M.run w).2.registers = g
  fair : (M.run w).2.Fair

/-- The same from any moment at which the registers are `g`; they end as `g'`. -/
def Follows (g g' : Registers) (M : Work α) (m : Reading α) : Prop :=
  ∀ ⦃w : Machine⦄, w.Fair → w.registers = g → Ends w M m g'

namespace Ends

theorem pure (hw : w.Fair) (x : α) : Ends w (pure x) (Pure.pure x) w.registers := ⟨rfl, rfl, hw⟩

theorem bind (h : Ends w M m g) (h' : Ends (M.run w).2 (F (M.run w).1) (f (M.run w).1) g') :
    Ends w (M >>= F) (m >>= f) g' where
  run := by
    rw [StateT.run_bind, h.run]
    exact h'.run
  registers := h'.registers
  fair := h'.fair

/-- To look at the machine is to look at its reader. -/
theorem get {F : Machine → Work α} {f : Reader → Reading α} (h : Ends w (F w) (f w.reader) g) :
    Ends w (get >>= F) (MonadState.get >>= f) g := ⟨h.run, h.registers, h.fair⟩

theorem told {m : Context → Reading α} {c : Context} (hm : Grammar.Steady (m w.context))
    (hw : w.Fair) (hc : m w.context = m c) : Ends w (told m) (m c) w.registers where
  run := by rw [← hc]; rfl
  registers := rfl
  fair := ⟨(hm hw.sound (Grammar.run_self _ _)).sound, hw.statements, hw.members⟩

theorem noteStatement (h : Ends w M m w.registers)
    (htakes : w.reader.Past (M.run w).2.reader) :
    Ends w (noted noteStatement M) m w.registers where
  run := h.run
  registers := h.registers
  fair := by
    refine ⟨h.fair.sound, fun p hp => ?_, h.fair.members⟩
    rcases List.mem_append.mp hp with hp | hp
    · exact h.fair.statements p hp
    · obtain rfl := List.mem_singleton.mp hp
      exact ⟨Passage.takes_of_past htakes, h.registers⟩

theorem noteMember (h : Ends w M m g) (htakes : w.reader.Past (M.run w).2.reader) :
    Ends w (noted noteMember M) m g where
  run := h.run
  registers := h.registers
  fair := by
    refine ⟨h.fair.sound, h.fair.statements, fun p hp => ?_⟩
    rcases List.mem_append.mp hp with hp | hp
    · exact h.fair.members p hp
    · obtain rfl := List.mem_singleton.mp hp
      exact Passage.takes_of_past htakes

end Ends

namespace Follows

/-! ### Combinators -/

theorem pure (x : α) : Follows g g (pure x) (Pure.pure x) := fun _ hw hg => hg ▸ .pure hw x

theorem bind (h : Follows g g' M m) (hF : ∀ x, Follows g' g'' (F x) (f x)) :
    Follows g g'' (M >>= F) (m >>= f) := fun _ hw hg =>
  have hm := h hw hg
  hm.bind (hF _ hm.fair hm.registers)

theorem map (h : Follows g g' M m) (k : α → β) :
    Follows g g' (M >>= fun x => Pure.pure (k x)) (m >>= fun x => Pure.pure (k x)) :=
  h.bind fun x => .pure (k x)

theorem ite {p : Prop} [Decidable p] {N : Work α} {n : Reading α} (h : Follows g g' M m)
    (h' : Follows g g' N n) : Follows g g' (if p then M else N) (if p then m else n) := by
  split
  · exact h
  · exact h'

theorem register {k : Registers → Registers} {M : Work α} (h : Follows (k g) g' M m) :
    Follows g g' (register k >>= fun _ => M) m := fun w hw hg => by
  have hk : Ends { w with registers := k w.registers } M m g' :=
    h ⟨hw.sound, hw.statements, hw.members⟩ (congrArg k hg)
  exact ⟨hk.run, hk.registers, hk.fair⟩

theorem consulted {F : Registers → Work α} (h : Follows g g' (F g) m) :
    Follows g g' (consulted >>= F) m := fun w hw hg => by
  have hF : Ends w (F w.registers) m g' := hg ▸ h hw hg
  exact ⟨hF.run, hF.registers, hF.fair⟩

theorem told {m : Context → Reading α} {c : Context}
    (hm : Grammar.Steady (m (g.context (g.depth == 0))))
    (hc : m (g.context (g.depth == 0)) = m c) : Follows g g (told m) (m c) := fun w hw hg => by
  subst hg
  exact .told hm hw hc

/-- A reading that asks for nothing in the registers. -/
theorem lift (hm : Grammar.Steady m) : Follows g g (liftM m : Work α) m :=
  told (m := fun _ => m) (c := .file) hm rfl

/-! ### Attempts -/

theorem yield (x : α) :
    Follows g g (Pure.pure x : Trial α).run (Pure.pure x : Attempt α).run := .pure (Except.ok x)

theorem work (h : Follows g g' M m) :
    Follows g g' (liftM M : Trial α).run (liftM m : Attempt α).run :=
  h.bind fun x => .pure (Except.ok x)

theorem tried {a : Attempt α} (ha : Grammar.Steady a.run) :
    Follows g g (liftM a : Trial α).run a.run :=
  told (m := fun _ => a.run) (c := .file) ha rfl

/-- A reading in the middle of an attempt. -/
theorem asked (hm : Grammar.Steady m) :
    Follows g g (liftM m : Trial α).run (liftM m : Attempt α).run := work (lift hm)

theorem placed {F : Context → Trial α} {a : Attempt α}
    (h : Follows g g' (F (g.context (g.depth == 0))).run a.run) :
    Follows g g' (liftM place >>= F).run a.run := fun w hw hg => by
  have hF : Ends w (F w.context).run a.run g' := by
    rw [context, hg]
    exact h hw hg
  exact ⟨hF.run, hF.registers, hF.fair⟩

theorem attempt {A : Trial α} {a : Attempt α} {F : Except Refusal α → Work β}
    {f : Except Refusal α → Reading β} (h : Follows g g' A.run a.run)
    (hok : ∀ x, Follows g' g'' (F (.ok x)) (f (.ok x)))
    (herror : Follows g' g'' (F (.error .reported)) (f (.error .reported))) :
    Follows g g'' (A.run >>= F) (a.run >>= f) := by
  refine h.bind fun o => ?_
  obtain ⟨⟨⟩⟩ | x := o
  · exact herror
  · exact hok x

theorem chained {A : Trial α} {a : Attempt α} {F : α → Trial β} {f : α → Attempt β}
    (h : Follows g g' A.run a.run) (hF : ∀ x, Follows g' g' (F x).run (f x).run) :
    Follows g g' (A >>= F).run (a >>= f).run := by
  rw [ExceptT.run_bind, ExceptT.run_bind]
  exact h.attempt hF (.pure _)

theorem attempt_ite {p : Prop} [Decidable p] {A B : Trial α} {a b : Attempt α}
    (h : Follows g g' A.run a.run) (h' : Follows g g' B.run b.run) :
    Follows g g' (if p then A else B).run (if p then a else b).run := by
  split
  · exact h
  · exact h'

theorem nested {T : Trial α} {a : Attempt α} (h : Follows g.nested g.nested T.run a.run) :
    Follows g g (nested T).run a.run := by
  have hrun : a.run = a.run >>= Pure.pure := (bind_pure _).symm
  rw [hrun]
  exact .register (h.bind fun x => .register (.pure x))

theorem discard (h : Follows g g' M m) : Follows g g' (Functor.discard M) (Functor.discard m) := by
  change Follows g g' (Functor.mapConst PUnit.unit M) (Functor.mapConst PUnit.unit m)
  simp only [LawfulFunctor.map_const, Function.comp_apply, ← bind_pure_comp]
  exact h.bind fun _ => .pure _

theorem attempt_discard {A : Trial α} {a : Attempt α} (h : Follows g g' A.run a.run) :
    Follows g g' (Functor.discard A).run (Functor.discard a).run := by
  change Follows g g' (Functor.mapConst PUnit.unit A).run (Functor.mapConst PUnit.unit a).run
  simp only [LawfulFunctor.map_const, Function.comp_apply, ← bind_pure_comp]
  exact h.chained fun _ => .yield _

/-! ### Loops -/

/-- Every round follows, if it is begun where the repetition goes on. -/
theorem repeated {more : Machine → Bool} {more' : Reader → Bool} {body : Work (List α)}
    {body' : Reading (List α)} (hmore : ∀ w : Machine, w.registers = g → more w = more' w.reader)
    (hbody : ∀ ⦃w : Machine⦄, w.Fair → w.registers = g → more' w.reader = true →
      Ends w body body' g) :
    Follows g g (Machine.repeated more body) (Grammar.repeated more' body') := by
  have hgo : ∀ rounds, Follows g g (repeated.go more body rounds)
      (Grammar.repeated.go more' body' rounds) := by
    intro rounds
    induction rounds with
    | nil => exact .pure []
    | cons t rounds ih =>
        intro w hw hg
        rw [repeated.go, Grammar.repeated.go]
        refine .get ?_
        rw [hmore w hg]
        split
        · rename_i hm
          have hb := hbody hw hg hm
          exact hb.bind (ih.map _ hb.fair hb.registers)
        · exact Follows.pure [] hw hg
  exact fun w hw hg => .get (hgo w.reader.rounds hw hg)

theorem listed {item : Trial α} {item' : Attempt α} (h : Follows g g item.run item'.run) :
    Follows g g (Machine.listed item) (Grammar.listed item') := by
  have hgo : ∀ rounds, Follows g g (listed.go item rounds) (Grammar.listed.go item' rounds) := by
    intro rounds
    induction rounds with
    | nil => exact .pure ([], true)
    | cons t rounds ih =>
        rw [listed.go, Grammar.listed.go]
        refine h.attempt (fun x => ?_) (.pure ([], false))
        exact (lift (Grammar.steady_take? _)).bind fun _ =>
          .ite (ih.bind fun _ => .pure _) (.pure _)
  exact fun w hw hg => .get (hgo w.reader.rounds hw hg)

theorem listUpTo {close : Punctuation} {item : Trial α} {item' : Attempt α}
    (h : Follows g g item.run item'.run) :
    Follows g g (Machine.listUpTo close item).run (Grammar.listUpTo close item').run := by
  refine chained (chained (asked Grammar.steady_current) fun t => ?_) fun xs => ?_
  · refine .attempt_ite (.yield []) (chained (work h.listed) fun out => ?_)
    obtain ⟨xs, whole⟩ := out
    exact .attempt_ite (.yield xs) (.pure _)
  · exact chained (tried (Grammar.steady_expectPunctuation _)) fun _ => .yield xs

theorem recovering {B : Work (List α × Bool)} {body : Reading (List α × Bool)} {b : Bool}
    (h : Follows g g B body) :
    Follows g g (Machine.recovering B) (Grammar.recovering (g.context b) body) := by
  refine (lift Grammar.steady_current).bind fun t => h.bind fun out => ?_
  obtain ⟨xs, whole⟩ := out
  cases whole with
  | true => exact .pure xs
  | false => exact (told (Grammar.steady_recover _) rfl).bind fun _ => .pure xs

theorem single {A : Trial α} {a : Attempt α} (h : Follows g g A.run a.run) :
    Follows g g (Machine.single A) (Grammar.single a) :=
  h.attempt (fun _ => .pure _) (.pure _)

end Follows

end Machine

end Clipper
