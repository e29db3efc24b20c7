import Clipper.Proofs.Reading.Text
import Clipper.Proofs.Resolution.Undeclared

/-!
The names that a program refers to come in the order of the text, also where reading went on
behind a fault. Every part of a tree is made of tokens that were taken one behind the other,
so the references of its parts follow each other as the parts do.
-/

namespace Clipper

/-! ### Places that are passed on the way -/

namespace Reader

/-- On the way from one reader to another tokens are taken, and some of them, in this order,
begin at these offsets. -/
def Visits (r : Reader) (starts : List Nat) (r' : Reader) : Prop :=
  ∃ taken, r.pending = taken ++ r'.pending ∧ starts.Sublist (taken.map (·.span.start))

variable {r r' r'' : Reader} {ns ms : List Nat}

theorem Onward.visits (h : r.Onward r') : r.Visits [] r' :=
  have ⟨taken, htaken⟩ := h.pending
  ⟨taken, htaken.symm, List.nil_sublist _⟩

theorem visits_advanced (hr : r.Sound) (h : r.atEnd = false) :
    r.Visits [r.current.span.start] r.advanced :=
  ⟨[r.current], pending_eq_cons hr h, List.Sublist.refl _⟩

namespace Visits

theorem trans (h : r.Visits ns r') (h' : r'.Visits ms r'') : r.Visits (ns ++ ms) r'' := by
  obtain ⟨ts, hts, hns⟩ := h
  obtain ⟨us, hus, hms⟩ := h'
  refine ⟨ts ++ us, by rw [hts, hus, List.append_assoc], ?_⟩
  rw [List.map_append]
  exact hns.append hms

theorem mono (h : r.Visits ns r') (hsub : ms.Sublist ns) : r.Visits ms r' :=
  have ⟨ts, hts, hns⟩ := h
  ⟨ts, hts, hsub.trans hns⟩

theorem onward (h : r.Visits ns r') (h' : r'.Onward r'') : r.Visits ns r'' := by
  simpa using h.trans h'.visits

theorem after (h : r'.Visits ns r'') (h' : r.Onward r') : r.Visits ns r'' :=
  h'.visits.trans h

end Visits

end Reader

/-! ### References -/

namespace Reference

/-- Where references stand in the text, placeholders apart. -/
def starts (rs : List Reference) : List Nat :=
  (rs.filter fun r => !r.name.isMissing).map (·.name.token.span.start)

variable {rs rs' : List Reference} {s : Scope} {t : Token}

@[simp] theorem starts_append : starts (rs ++ rs') = starts rs ++ starts rs' := by simp [starts]

theorem starts_cons (r : Reference) : starts (r :: rs) = starts [r] ++ starts rs := by
  rw [← starts_append, List.singleton_append]

theorem starts_name : (starts [⟨s, ⟨t⟩⟩]).Sublist [t.span.start] := by
  unfold starts
  exact (List.filter_sublist (l := [(⟨s, ⟨t⟩⟩ : Reference)])).map _

@[simp] theorem starts_missing : starts [⟨s, .missing t⟩] = [] := by
  simp [starts, isMissing_missing]

end Reference

namespace Names

open Reference

variable {s : Scope}

theorem starts_referredEach (xs : List Expr) :
    starts (referredEach s xs) = xs.flatMap fun x => starts (referred s x) := by
  induction xs with
  | nil => rfl
  | cons x xs ih => rw [referredEach, starts_append, ih, List.flatMap_cons]

theorem starts_referredGuardeds (gs : List Guarded) :
    starts (referredGuardeds s gs) = gs.flatMap fun g => starts (referredGuarded s g) := by
  induction gs with
  | nil => rfl
  | cons g gs ih => rw [referredGuardeds, starts_append, ih, List.flatMap_cons]

theorem starts_referredStmts (ss : List Stmt) :
    starts (referredStmts s ss) = ss.flatMap fun x => starts (referredStmt s x) := by
  induction ss with
  | nil => rfl
  | cons x ss ih => rw [referredStmts, starts_append, ih, List.flatMap_cons]

/-- What a member of a class refers to. -/
def referredMember (s : Scope) : Grammar.Member → List Reference
  | .data _ => []
  | .method m => referredMethod s m

theorem starts_referredMethods (ms : List Grammar.Member) :
    starts (referredMethods s (ms.filterMap Grammar.Member.method?)) =
      ms.flatMap fun m => starts (referredMember s m) := by
  induction ms with
  | nil => rfl
  | cons m ms ih =>
      rw [List.flatMap_cons, ← ih]
      cases m with
      | data a => rfl
      | method m => exact starts_append

end Names

open Names Reference

namespace Grammar

variable {α : Type} {e : Expressions} {c : Context} {r r' : Reader} {s : Scope}

/-! ### Loops -/

theorem Repeats.visits {more : Reader → Bool} {body : Reading (List α)} {f : α → List Nat}
    (hpast : ∀ ⦃r xs r'⦄, r.Sound → more r = true → Run body r xs r' → r.Past r')
    (hbody : ∀ ⦃r xs r'⦄, r.Sound → more r = true → Run body r xs r' → r.Visits (xs.flatMap f) r')
    {xs : List α} (h : Repeats more body r xs r') (hr : r.Sound) : r.Visits (xs.flatMap f) r' := by
  induction h with
  | stop _ => exact (Reader.Onward.refl hr).visits
  | round hm hx _ ih =>
      rw [List.flatMap_append]
      exact (hbody hr hm hx).trans (ih (hpast hr hm hx).onward.sound)

theorem Lists.visits {item : Attempt α} {f : α → List Nat} (hsteady : Steady item.run)
    (hitem : ∀ ⦃r x r'⦄, r.Sound → Yields item r x r' → r.Visits (f x) r') {xs : List α}
    {whole : Bool} (h : Lists item r xs whole r') (hr : r.Sound) : r.Visits (xs.flatMap f) r' := by
  induction h with
  | refused hx => exact (hsteady.refuses hr hx).visits
  | last hx _ => simpa using hitem hr hx
  | more hx _ _ ih =>
      have ho := hsteady.yields hr hx
      have ha := Reader.onward_advanced ho.sound
      rw [List.flatMap_cons]
      exact (hitem hr hx).trans ((ih ha.sound).after ha)

theorem visits_listUpTo {close : Punctuation} {item : Attempt α} {f : α → List Nat}
    (hsteady : Steady item.run)
    (hitem : ∀ ⦃r x r'⦄, r.Sound → Yields item r x r' → r.Visits (f x) r') {xs : List α}
    (hr : r.Sound) (h : Yields (listUpTo close item) r xs r') : r.Visits (xs.flatMap f) r' := by
  rw [yields_listUpTo] at h
  split at h
  · obtain ⟨rfl, rfl⟩ := h
    exact (Reader.onward_advanced hr).visits
  · obtain ⟨u, hxs, -, rfl⟩ := h
    have ho := steady_listed hsteady hr hxs
    exact (((run_listed hsteady hr).mp hxs).visits hsteady hitem hr).onward
      (Reader.onward_advanced ho.sound)

/-- Recovery only leaves tokens out. -/
theorem visits_recovering {body : Reading (List α × Bool)} {f : α → List Nat}
    (hsteady : Steady body)
    (hbody : ∀ ⦃xs whole r'⦄, Run body r (xs, whole) r' → r.Visits (xs.flatMap f) r')
    {xs : List α} (hr : r.Sound) (h : Run (recovering c body) r xs r') :
    r.Visits (xs.flatMap f) r' := by
  obtain ⟨whole, u, hu, rfl⟩ := run_recovering.mp h
  have ho := (hsteady hr hu).sound
  cases whole with
  | true => exact hbody hu
  | false => exact (hbody hu).onward (Reader.onward_recovered ho _)

/-! ### Statements -/

/-- The references of an expression come as its tokens are taken. -/
structure Expressions.Visiting (e : Expressions) : Prop extends e.Lawful where
  visits : ∀ ⦃c p r x r'⦄ (s : Scope), r.Sound → Yields (e c p) r x r' →
    r.Visits (starts (referred s x)) r'

section Statements

variable (he : e.Visiting)

include he

theorem visits_expressionOrMissing {p : Nat} {x : Expr} (hr : r.Sound)
    (h : Run (expressionOrMissing e c p) r x r') : r.Visits (starts (referred s x)) r' := by
  have ho := steady_expressionOrMissing he.toLawful p hr h
  rcases run_expressionOrMissing.mp h with h | ⟨_, _, rfl, _⟩
  · exact he.visits s hr h
  · exact ho.visits

theorem visits_declarator {d : Name × Option Expr} (hr : r.Sound)
    (h : Yields (declarator e c) r d r') : r.Visits (starts (referredOpt s d.2)) r' := by
  obtain ⟨_, h⟩ := yields_declarator.mp h
  have ha := Reader.onward_advanced hr
  split at h
  · obtain ⟨x, hx, rfl⟩ := h
    have ha' := ha.trans (Reader.onward_advanced ha.sound)
    exact (visits_expressionOrMissing he ha'.sound hx).after ha'
  · obtain ⟨rfl, rfl⟩ := h
    exact ha.visits

theorem visits_variableList {ss : List Stmt} {whole : Bool} (hr : r.Sound)
    (h : Run (variableList e c) r (ss, whole) r') :
    r.Visits (ss.flatMap fun x => starts (referredStmt s x)) r' := by
  have ha := Reader.onward_advanced hr
  have hsteady := steady_declarator (c := c) he.toLawful
  obtain ⟨ds, _, u, hds, h⟩ := run_variableList.mp h
  have ho := steady_listed hsteady ha.sound hds
  have hvisits := (((run_listed hsteady ha.sound).mp hds).visits hsteady
    (fun _ _ _ => visits_declarator (s := s) he) ha.sound).after ha
  have hstatements : ∀ t : Token, (ds.map fun d => Stmt.variable t (storageOf t) d.1 d.2).flatMap
      (fun x => starts (referredStmt s x)) = ds.flatMap fun d => starts (referredOpt s d.2) :=
    fun t => by rw [List.flatMap_map]; rfl
  split at h
  · obtain ⟨b, hb, hout⟩ := h
    obtain ⟨rfl, -⟩ := Prod.mk.inj hout
    rw [hstatements]
    exact hvisits.onward (steady_succeeds steady_endOfStatement ho.sound hb)
  · obtain ⟨hout, rfl⟩ := h
    obtain ⟨rfl, -⟩ := Prod.mk.inj hout
    rw [hstatements]
    exact hvisits

theorem visits_returned {x : Stmt} (hr : r.Sound) (h : Yields (returned e c) r x r') :
    r.Visits (starts (referredStmt s x)) r' := by
  have ha := Reader.onward_advanced hr
  obtain ⟨v, hv, _, rfl⟩ := yields_returned.mp h
  rw [yields_returnedValue] at hv
  split at hv
  · obtain ⟨rfl, rfl⟩ := hv
    exact ha.visits
  · obtain ⟨y, hy, rfl⟩ := hv
    exact (he.visits s ha.sound hy).after ha

theorem visits_expressionStatement {x : Stmt} (hr : r.Sound)
    (h : Yields (expressionStatement e c) r x r') : r.Visits (starts (referredStmt s x)) r' := by
  obtain ⟨y, hy, _, rfl⟩ := yields_expressionStatement.mp h
  exact he.visits s hr hy

theorem visits_plain {ss : List Stmt} {whole : Bool} (hr : r.Sound)
    (h : Run (plain e c) r (ss, whole) r') :
    r.Visits (ss.flatMap fun x => starts (referredStmt s x)) r' := by
  have ho := steady_plain he.toLawful hr h
  rw [run_plain] at h
  split at h
  · exact visits_variableList he hr h
  split at h
  · rcases run_single.mp h with ⟨x, hx, hout⟩ | ⟨-, hout⟩
    · obtain ⟨rfl, -⟩ := Prod.mk.inj hout
      simpa using visits_returned he hr hx
    · obtain ⟨rfl, -⟩ := Prod.mk.inj hout
      exact ho.visits
  split at h
  · rcases run_single.mp h with ⟨x, hx, hout⟩ | ⟨-, hout⟩
    · obtain ⟨rfl, -⟩ := Prod.mk.inj hout
      simpa using visits_expressionStatement he hr hx
    · obtain ⟨rfl, -⟩ := Prod.mk.inj hout
      exact ho.visits
  · obtain ⟨hout, -⟩ := h
    obtain ⟨rfl, -⟩ := Prod.mk.inj hout
    exact ho.visits

omit he in
theorem visits_wholeStatement {body : Reading (List Stmt × Bool)} (hsteady : Steady body)
    (hbody : ∀ ⦃ss whole r'⦄, Run body r (ss, whole) r' →
      r.Visits (ss.flatMap fun x => starts (referredStmt s x)) r')
    {ss : List Stmt} (hr : r.Sound) (h : Run (wholeStatement c body) r ss r') :
    r.Visits (ss.flatMap fun x => starts (referredStmt s x)) r' := by
  obtain ⟨u, hu, rfl⟩ := run_wholeStatement.mp h
  have hv := visits_recovering hsteady hbody hr hu
  obtain ⟨whole, v, hv', rfl⟩ := run_recovering.mp hu
  have ho := hsteady hr hv'
  cases whole with
  | true => exact hv.onward (Reader.onward_settled ho.sound)
  | false =>
      exact hv.onward (Reader.onward_settled (Reader.onward_recovered ho.sound _).sound)

theorem visits_plainStatement {ss : List Stmt} (hr : r.Sound)
    (h : Run (plainStatement e c) r ss r') :
    r.Visits (ss.flatMap fun x => starts (referredStmt s x)) r' :=
  visits_wholeStatement (steady_plain he.toLawful) (fun _ _ _ => visits_plain he hr) hr h

omit he in
theorem visits_block {statement : Context → Reading (List Stmt)} {closers : List Keyword}
    (hpast : ∀ ⦃c r ss r'⦄, r.Sound → r.atEnd = false → Run (statement c) r ss r' → r.Past r')
    (hstatement : ∀ ⦃c r ss r'⦄, r.Sound → Run (statement c) r ss r' →
      r.Visits (ss.flatMap fun x => starts (referredStmt s x)) r')
    {b : Block} (hr : r.Sound) (h : Run (block statement c closers) r b r') :
    r.Visits (starts (referredBlock s b)) r' := by
  obtain ⟨ss, hss, rfl⟩ := (run_block_repeats hpast hr).mp h
  rw [referredBlock, starts_referredStmts]
  refine hss.visits (fun r ss r' hr hm h => ?_) (fun r ss r' hr _ h => hstatement hr h) hr
  simp only [Bool.and_eq_true, Bool.not_eq_true'] at hm
  exact hpast hr hm.1 h

/-! ### Declarations -/

/-- What a routine refers to stands in its body, whatever scope that makes. -/
theorem visits_routine {what : String} {t : Token} {closers : List Keyword} {close : Keyword}
    {x : Routine} (hr : r.Sound) (h : Run (routine e c what t closers close) r x r') :
    r.Visits (starts (referredBlock s x.body)) r' := by
  obtain ⟨n, u, ps, u₁, b, u₂, hn, hps, hb, closing, hc, rfl⟩ := run_routine.mp h
  have h₁ := steady_nameOrMissing _ hr hn
  have h₂ := h₁.trans (steady_parameters h₁.sound hps)
  have hpast : ∀ ⦃c r ss r'⦄, r.Sound → r.atEnd = false → Run (plainStatement e c) r ss r' →
      r.Past r' := fun _ _ _ _ => past_plainStatement he.toLawful
  have h₃ := steady_block hpast h₂.sound hb
  have hv := visits_block hpast (fun _ _ _ _ => visits_plainStatement (s := s) he) h₂.sound hb
  exact (hv.after h₂).onward (steady_take? _ h₃.sound hc)

theorem visits_function {x : Stmt} (hr : r.Sound) (h : Run (function e c) r x r') :
    r.Visits (starts (referredStmt s x)) r' := by
  have ha := Reader.onward_advanced hr
  obtain ⟨⟨t, n, ps, b, closing⟩, hf, rfl⟩ := run_function.mp h
  split at hf
  · have ha' := ha.trans (Reader.onward_advanced ha.sound)
    exact (visits_routine he ha'.sound hf).after ha'
  · exact (visits_routine he ha.sound hf).after ha

theorem visits_member {ms : List Member} {whole : Bool} (hr : r.Sound)
    (h : Run (member e c) r (ms, whole) r') :
    r.Visits (ms.flatMap fun m => starts (referredMember s m)) r' := by
  have ha := Reader.onward_advanced hr
  have ho := steady_member he.toLawful hr h
  have hdata : ∀ (t : Token) (ns : List Name), (ns.map fun n => Member.data ⟨t, n⟩).flatMap
      (fun m => starts (referredMember s m)) = [] := fun t ns => by
    rw [List.flatMap_map, List.flatMap_eq_nil_iff]
    exact fun _ _ => rfl
  rw [run_member] at h
  split at h
  · obtain ⟨ns, _, _, _, h⟩ := run_attributes.mp h
    split at h
    · obtain ⟨_, _, hout⟩ := h
      obtain ⟨rfl, -⟩ := Prod.mk.inj hout
      exact hdata _ ns ▸ ho.visits
    · obtain ⟨hout, -⟩ := h
      obtain ⟨rfl, -⟩ := Prod.mk.inj hout
      exact hdata _ ns ▸ ho.visits
  split at h
  · obtain ⟨⟨t, n, ps, b, closing⟩, hm, hout⟩ := run_method.mp h
    obtain ⟨rfl, -⟩ := Prod.mk.inj hout
    rw [List.flatMap_singleton]
    exact (visits_routine he ha.sound hm).after ha
  · obtain ⟨hout, -⟩ := h
    obtain ⟨rfl, -⟩ := Prod.mk.inj hout
    exact ho.visits

theorem visits_classDefinition {x : Stmt} (hr : r.Sound)
    (h : Run (classDefinition e c) r x r') : r.Visits (starts (referredStmt s x)) r' := by
  have ha := Reader.onward_advanced hr
  obtain ⟨n, u, parent, u₁, ms, u₂, hn, hp, hms, closed, hc, rfl⟩ := run_classDefinition.mp h
  have h₁ := ha.trans (steady_nameOrMissing _ ha.sound hn)
  have h₂ := h₁.trans (steady_parentClass h₁.sound hp)
  have h₃ := steady_members he.toLawful h₂.sound hms
  have hv := ((run_members_repeats he.toLawful h₂.sound).mp hms).visits
    (past_memberRound he.toLawful)
    (fun _ _ _ hr _ h => visits_recovering (steady_member he.toLawful)
      (fun _ _ _ => visits_member (s := s.enterClass n.text) he hr) hr h) h₂.sound
  rw [← starts_referredMethods] at hv
  exact (hv.after h₂).onward (steady_closing _ _ h₃.sound hc)

theorem visits_general {ss : List Stmt} {whole : Bool} (hr : r.Sound)
    (h : Run (general e c) r (ss, whole) r') :
    r.Visits (ss.flatMap fun x => starts (referredStmt s x)) r' := by
  rw [run_general] at h
  split at h
  · exact visits_plain he hr h
  split at h
  · obtain ⟨f, hf, hout⟩ := h
    obtain ⟨rfl, -⟩ := Prod.mk.inj hout
    simpa using visits_function he hr hf
  split at h
  · obtain ⟨d, hd, hout⟩ := h
    obtain ⟨rfl, -⟩ := Prod.mk.inj hout
    simpa using visits_classDefinition he hr hd
  · exact visits_plain he hr h

theorem visits_statement {ss : List Stmt} (hr : r.Sound) (h : Run (statement e c) r ss r') :
    r.Visits (ss.flatMap fun x => starts (referredStmt s x)) r' :=
  visits_wholeStatement (steady_general he.toLawful) (fun _ _ _ => visits_general he hr) hr h

/-! ### Operands -/

theorem visits_arguments {close : Punctuation} {xs : List Expr} (hr : r.Sound)
    (h : Yields (arguments e c close) r xs r') : r.Visits (starts (referredEach s xs)) r' := by
  rw [starts_referredEach]
  exact visits_listUpTo (steady_argument he.toLawful)
    (fun _ _ _ hr h => visits_expressionOrMissing he hr (yields_lift.mp h)) hr h

theorem visits_body {closers : List Keyword} {b : Block} (hr : r.Sound)
    (h : Run (body e c closers) r b r') : r.Visits (starts (referredBlock s b)) r' :=
  visits_block (fun _ _ _ _ => past_statement he.toLawful)
    (fun _ _ _ _ => visits_statement he) hr h

theorem visits_guarded {t : Token} {closers : List Keyword} {g : Guarded} (hr : r.Sound)
    (h : Run (guarded e c t closers) r g r') : r.Visits (starts (referredGuarded s g)) r' := by
  obtain ⟨x, u, b, hx, hb, rfl⟩ := run_guarded.mp h
  have ho := steady_expressionOrMissing he.toLawful _ hr hx
  rw [referredGuarded, starts_append]
  exact (visits_expressionOrMissing he hr hx).trans (visits_body he ho.sound hb)

theorem visits_otherBranches {gs : List Guarded} (hr : r.Sound)
    (h : Run (otherBranches e c) r gs r') : r.Visits (starts (referredGuardeds s gs)) r' := by
  rw [starts_referredGuardeds]
  refine ((run_otherBranches he.toLawful hr).mp h).visits (past_elseIf he.toLawful)
    (fun r gs r' hr _ h => ?_) hr
  obtain ⟨g, hg, rfl⟩ := run_elseIf.mp h
  have ha := Reader.onward_advanced hr
  simpa using (visits_guarded he ha.sound hg).after ha

theorem visits_alternative {b : Option Block} (hr : r.Sound)
    (h : Run (alternative e c) r b r') : r.Visits (starts (referredOptBlock s b)) r' := by
  rw [run_alternative] at h
  split at h
  · obtain ⟨b, hb, rfl⟩ := h
    have ha := Reader.onward_advanced hr
    exact (visits_body he ha.sound hb).after ha
  · obtain ⟨rfl, rfl⟩ := h
    exact (Reader.Onward.refl hr).visits

theorem visits_branch {x : Expr} (hr : r.Sound) (h : Run (branch e c) r x r') :
    r.Visits (starts (referred s x)) r' := by
  obtain ⟨g, u, gs, u₁, b, u₂, hg, hgs, hb, closed, hc, rfl⟩ := run_branch.mp h
  have ha := Reader.onward_advanced hr
  have h₁ := steady_guarded he.toLawful _ _ ha.sound hg
  have h₂ := steady_otherBranches he.toLawful h₁.sound hgs
  have h₃ := steady_alternative he.toLawful h₂.sound hb
  rw [referred, starts_append, starts_append]
  refine Reader.Visits.onward ?_ (steady_closing _ _ h₃.sound hc)
  exact ((((visits_guarded he ha.sound hg).after ha).trans
    (visits_otherBranches he h₁.sound hgs)).trans (visits_alternative he h₂.sound hb))

theorem visits_whileLoop {x : Expr} (hr : r.Sound) (h : Run (whileLoop e c) r x r') :
    r.Visits (starts (referred s x)) r' := by
  obtain ⟨u, g, u₁, hu, hg, closed, hc, rfl⟩ := run_whileLoop.mp h
  have ha := Reader.onward_advanced hr
  have h₁ : r.Onward u := by
    split at hu
    · exact ha.trans (steady_requireKeyword _ ha.sound hu)
    · exact hu ▸ ha
  have h₂ := steady_guarded he.toLawful _ _ h₁.sound hg
  exact ((visits_guarded he h₁.sound hg).after h₁).onward (steady_closing _ _ h₂.sound hc)

theorem visits_stepClause {x : Option Expr} (hr : r.Sound) (h : Run (stepClause e c) r x r') :
    r.Visits (starts (referredOpt s x)) r' := by
  rw [run_stepClause] at h
  split at h
  · obtain ⟨y, hy, rfl⟩ := h
    have ha := Reader.onward_advanced hr
    exact (visits_expressionOrMissing he ha.sound hy).after ha
  · obtain ⟨rfl, rfl⟩ := h
    exact (Reader.Onward.refl hr).visits

omit he in
/-- The counter of a loop is referred to where it stands; a placeholder for it is not. -/
theorem visits_nameOrMissing {what : String} {n : Name} (hr : r.Sound)
    (h : Run (nameOrMissing what) r n r') : r.Visits (starts [⟨s, n⟩]) r' := by
  have ho := steady_nameOrMissing what hr h
  rw [run_nameOrMissing] at h
  split at h
  · rename_i hk
    obtain ⟨rfl, rfl⟩ := h
    have hend := Reader.atEnd_of_kind hk (by simp)
    exact (Reader.visits_advanced hr hend).mono starts_name
  · obtain ⟨rfl, -⟩ := h
    rw [starts_missing]
    exact ho.visits

theorem visits_forLoop {x : Expr} (hr : r.Sound) (h : Run (forLoop e c) r x r') :
    r.Visits (starts (referred s x)) r' := by
  obtain ⟨n, u, u₁, a, u₂, u₃, b, u₄, step, u₅, bl, u₆, closed, u₇, hn, hs, ha, hto, hb, hst, hbl,
    hc, hend, rfl⟩ := run_forLoop.mp h
  have h₀ := Reader.onward_advanced hr
  have h₁ := steady_nameOrMissing _ h₀.sound hn
  have h₂ := steady_counterSign _ h₁.sound hs
  have h₃ := steady_expressionOrMissing he.toLawful _ h₂.sound ha
  have h₄ := steady_requireKeyword _ h₃.sound hto
  have h₅ := steady_expressionOrMissing he.toLawful _ h₄.sound hb
  have h₆ := steady_stepClause he.toLawful h₅.sound hst
  have h₇ := steady_body he.toLawful _ h₆.sound hbl
  have h₈ := steady_closing _ _ h₇.sound hc
  have h₉ : u₇.Onward r' := by
    split at hend
    · exact steady_repeatedCounter _ h₈.sound hend
    · exact hend ▸ .refl h₈.sound
  have hcounter : r.Visits (starts [⟨s, n⟩]) u₁ :=
    ((visits_nameOrMissing h₀.sound hn).after h₀).onward h₂
  have hstart := hcounter.trans ((visits_expressionOrMissing (s := s) he h₂.sound ha).onward h₄)
  have hstop := hstart.trans (visits_expressionOrMissing (s := s) he h₄.sound hb)
  have hstep := hstop.trans (visits_stepClause (s := s) he h₅.sound hst)
  have hbody := hstep.trans (visits_body (s := s) he h₆.sound hbl)
  have hrefs : starts (referred s (.forLoop r.current n a b step bl closed)) =
      starts [⟨s, n⟩] ++ starts (referred s a) ++ starts (referred s b) ++
        starts (referredOpt s step) ++ starts (referredBlock s bl) := by
    simp only [referred, List.cons_append]
    rw [starts_cons]
    simp
  rw [hrefs]
  exact hbody.onward (h₈.trans h₉)

theorem visits_begun {st : Starter} {x : Expr} (hr : r.Sound) (hend : r.atEnd = false)
    (h : Yields (begun e c st) r x r') : r.Visits (starts (referred s x)) r' := by
  have ha := Reader.onward_advanced hr
  have hv := Reader.visits_advanced hr hend
  cases st with
  | name =>
      simp only [begun, yields_bind, yields_lift, run_advance, yields_pure] at h
      obtain ⟨_, _, ⟨rfl, rfl⟩, rfl, rfl⟩ := h
      exact hv.mono starts_name
  | date | boolean | nil =>
      simp only [begun, yields_bind, yields_lift, run_advance, yields_pure] at h
      obtain ⟨_, _, ⟨_, rfl⟩, rfl, rfl⟩ := h
      exact ha.visits
  | integer =>
      obtain ⟨_, rfl, rfl⟩ := yields_integer.mp h
      exact ha.visits
  | float =>
      obtain ⟨_, _, rfl, rfl⟩ := yields_float.mp h
      exact ha.visits
  | string =>
      obtain ⟨rfl, rfl⟩ := run_string.mp (yields_lift.mp h)
      exact ha.visits
  | unary op =>
      obtain ⟨y, hy, rfl⟩ := run_unary.mp (yields_lift.mp h)
      exact (visits_expressionOrMissing he ha.sound hy).after ha
  | group =>
      obtain ⟨u, hx, _, rfl⟩ := yields_group.mp h
      have ho := (he.past ha.sound hx).onward
      exact ((he.visits s ha.sound hx).after ha).onward (Reader.onward_advanced ho.sound)
  | array =>
      obtain ⟨xs, hxs, rfl⟩ := yields_array.mp h
      exact (visits_arguments he ha.sound hxs).after ha
  | ownMember =>
      -- The receiver is not written; it stands where the sign of the send does.
      obtain ⟨n, hn, rfl⟩ := yields_ownMember.mp h
      have hself : (starts (referred s (.member r.current
          (.name ⟨.implied (.keyword .kwSelf) "Self" r.current⟩) n))).Sublist
          [r.current.span.start] := starts_name
      exact (hv.mono hself).onward ((steady_name _).yields ha.sound hn)
  | branch => exact visits_branch he hr (yields_lift.mp h)
  | whileLoop => exact visits_whileLoop he hr (yields_lift.mp h)
  | forLoop => exact visits_forLoop he hr (yields_lift.mp h)

theorem visits_operand {x : Expr} (hr : r.Sound) (h : Yields (operand e c) r x r') :
    r.Visits (starts (referred s x)) r' := by
  obtain ⟨st, hst, h⟩ := yields_operand.mp h
  exact visits_begun he hr (atEnd_of_starter hst) h

/-! ### Chains -/

theorem visits_subscript {bracket : Token} {left : Expr} {out : Expr × Option Token}
    (hr : r.Sound) (h : Run (subscript e c bracket left) r out r') :
    ∃ ns, starts (referred s out.1) = starts (referred s left) ++ ns ∧ r.Visits ns r' := by
  obtain ⟨i, hi, rfl⟩ := run_subscript.mp h
  exact ⟨_, starts_append, visits_expressionOrMissing he hr hi⟩

/-- A link adds its references behind those of what it takes in. -/
theorem visits_attach {left : Expr} {st : Step} {out : Expr × Option Token} (hr : r.Sound)
    (h : Yields (attach e c left st) r out r') :
    ∃ ns, starts (referred s out.1) = starts (referred s left) ++ ns ∧ r.Visits ns r' := by
  have ha := Reader.onward_advanced hr
  obtain l | bracket := st
  · cases l with
    | binary op =>
        obtain ⟨y, hy, rfl⟩ := yields_attach_binary.mp h
        exact ⟨_, starts_append, (visits_expressionOrMissing he ha.sound hy).after ha⟩
    | assign =>
        obtain ⟨y, hy, rfl⟩ := yields_attach_assign.mp h
        refine ⟨_, starts_append, ?_⟩
        split at hy
        · exact (visits_expressionOrMissing he ha.sound hy).after ha
        · have ho := ha.trans (Reader.onward_reported ha.sound (.notAssignable left.token) rfl)
          exact (visits_expressionOrMissing he ho.sound hy).after ho
    | call =>
        obtain ⟨xs, hxs, rfl⟩ := yields_attach_call.mp h
        exact ⟨_, starts_append, (visits_arguments he ha.sound hxs).after ha⟩
    | index =>
        obtain ⟨ns, hns, hv⟩ := visits_subscript he ha.sound (yields_attach_index.mp h)
        exact ⟨ns, hns, hv.after ha⟩
    | member =>
        obtain ⟨n, hn, rfl⟩ := yields_attach_member.mp h
        exact ⟨[], (List.append_nil _).symm,
          (ha.trans ((steady_name _).yields ha.sound hn)).visits⟩
  · exact visits_subscript he hr (yields_attach_subscript.mp h)

end Statements

/-- A chain over readings of every smaller depth. -/
theorem visits_chain {n p : Nat} (he : ∀ m < n, (expression m).Visiting) {bracket : Option Token}
    {left x : Expr} (hr : r.Sound) (h : Yields (chain n c p bracket left) r x r') :
    ∃ ns, starts (referred s x) = starts (referred s left) ++ ns ∧ r.Visits ns r' := by
  induction n generalizing r bracket left with
  | zero =>
      rcases yields_chain.mp h with ⟨hstep, rfl⟩ | ⟨_, _, _, _, _, _, _, hn, _⟩
      · exact ⟨[], (List.append_nil _).symm, ((steady_nextStep p bracket).yields hr hstep).visits⟩
      · simp at hn
  | succ n ih =>
      have hn := he n (Nat.lt_succ_self n)
      rcases yields_chain.mp h with ⟨hstep, rfl⟩ | ⟨step, u, m, y, b, u', hstep, hm, h', h''⟩
      · exact ⟨[], (List.append_nil _).symm, ((steady_nextStep p bracket).yields hr hstep).visits⟩
      · obtain rfl := Nat.succ.inj hm
        have h₁ := (steady_nextStep p bracket).yields hr hstep
        have h₂ := (steady_attach hn.toLawful _ _).yields h₁.sound h'
        obtain ⟨ns, hns, hv⟩ := visits_attach (s := s) hn h₁.sound h'
        obtain ⟨ms, hms, hw⟩ := ih (fun m hm => he m (Nat.lt_succ_of_lt hm)) h₂.sound h''
        exact ⟨ns ++ ms, by rw [hms, hns, List.append_assoc], (hv.after h₁).trans hw⟩

theorem visiting_expression (n : Nat) : (expression n).Visiting := by
  induction n using Nat.strongRecOn with
  | ind n ih =>
      refine ⟨lawful_expression n, fun c p r x r' s hr h => ?_⟩
      cases n with
      | zero => exact absurd h yields_expression_zero
      | succ n =>
          have hn := ih n (Nat.lt_succ_self n)
          obtain ⟨left, u, h, h'⟩ := yields_expression_succ.mp h
          have ho := (past_operand hn.toLawful hr h).onward
          obtain ⟨ns, hns, hv⟩ := visits_chain (s := s)
            (fun m hm => ih m (Nat.lt_succ_of_lt hm)) ho.sound h'
          rw [hns]
          exact (visits_operand hn hr h).trans hv

end Grammar

/-! ### The order of the reports -/

/-- The references of a program that was read stand in the order of its text. -/
theorem references_pairwise (source file : String) :
    (starts (Parsed.ofSource source file).program.references).Pairwise (· < ·) := by
  have hclosed := TokenStream.closed_ofText file source
  obtain ⟨r, hreads, -⟩ := Grammar.exists_reads hclosed
  have hr := Reader.sound_ofStream hclosed
  have hv := hreads.statements.visits (f := fun x => starts (referredStmt .file x))
    Grammar.past_topStatement
    (fun _ _ _ hr _ h => Grammar.visits_statement (Grammar.visiting_expression _) hr h) hr
  obtain ⟨taken, htaken, hsub⟩ := hv
  have hprefix : taken.Sublist (TokenStream.ofText file source).body := by
    have h := List.sublist_append_left taken r.pending
    rw [← htaken, Reader.pending_ofStream hclosed] at h
    exact h.trans List.filter_sublist
  have hordered := (TokenStream.ofText_ordered file source).sublist hprefix
  rw [Program.references, starts_referredStmts]
  exact (List.pairwise_map.mpr hordered).sublist hsub

namespace Analysis

theorem undeclared?_eq_some {t : SymbolTable} {x : Externals} {r : Reference} {f : Fault}
    (h : undeclared? t x r = some f) :
    r.name.isMissing = false ∧ f.diagnostic.span.start = r.name.token.span.start := by
  rw [undeclared?] at h
  split at h
  · cases h
  · rename_i hexempt
    obtain rfl := Option.some.inj h
    simp only [isExempt, Bool.or_eq_true, not_or, Bool.not_eq_true] at hexempt
    exact ⟨hexempt.1.1, Nat.min_self _⟩

/-- Undeclared names are reported in the order of the text, none of them twice. -/
theorem undeclared_pairwise (x : Externals) (source file : String) :
    ((Check.ofSource x source file).diagnostics.filter (·.code == some .undeclared)).Pairwise
      fun d d' => d.span.start < d'.span.start := by
  have hordered := references_pairwise source file
  rw [starts, List.pairwise_map, List.pairwise_filter] at hordered
  rw [filter_undeclared, List.pairwise_map, List.pairwise_filterMap]
  refine hordered.imp fun {r r'} hlt f hf f' hf' => ?_
  obtain ⟨hname, hstart⟩ := undeclared?_eq_some hf
  obtain ⟨hname', hstart'⟩ := undeclared?_eq_some hf'
  rw [hstart, hstart']
  exact hlt (by simp [hname]) (by simp [hname'])

end Analysis

end Clipper
