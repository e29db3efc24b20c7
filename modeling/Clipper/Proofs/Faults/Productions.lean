import Clipper.Proofs.Faults.Accounts

/-!
Every production of the grammar accounts for the nodes it makes. Where an expression is
given up an error says so, and only there and for a missing name a placeholder is made.
-/

open scoped List

namespace Clipper

namespace Nodes

theorem expressions_eq (es : List Expr) : expressions es = es.flatMap expression := by
  induction es with
  | nil => rfl
  | cons e es ih => rw [expressions, ih, List.flatMap_cons]

theorem branches_eq (gs : List Guarded) : branches gs = gs.flatMap guarded := by
  induction gs with
  | nil => rfl
  | cons g gs ih => rw [branches, ih, List.flatMap_cons]

theorem stmts_eq (ss : List Stmt) : stmts ss = ss.flatMap stmt := by
  induction ss with
  | nil => rfl
  | cons s ss ih => rw [stmts, ih, List.flatMap_cons]

end Nodes

namespace Grammar

variable {α : Type} {f : α → List Node} {e : Expressions} {c : Context} {r r' : Reader}

/-! ### Loops and names -/

theorem Repeats.accounts {more : Reader → Bool} {body : Reading (List α)}
    (hbody : ∀ ⦃r xs r'⦄, r.Sound → more r = true → Run body r xs r' →
      r.Accounts (xs.flatMap f) r')
    {xs : List α} (h : Repeats more body r xs r') (hr : r.Sound) :
    r.Accounts (xs.flatMap f) r' := by
  induction h with
  | stop _ => exact .refl hr
  | round hm hb _ ih =>
      have ha := hbody hr hm hb
      rw [List.flatMap_append]
      exact ha.trans (ih ha.onward.sound)

theorem Lists.accounts {item : Attempt α} (hitem : Steady item.run)
    (hyields : ∀ ⦃r x r'⦄, r.Sound → Yields item r x r' → r.Accounts (f x) r')
    {xs : List α} {whole : Bool} (h : Lists item r xs whole r') (hr : r.Sound) :
    r.Accounts (xs.flatMap f) r' := by
  induction h with
  | refused hx => exact .of_onward (hitem.refuses hr hx)
  | last hx _ => simpa using hyields hr hx
  | more hx _ _ ih =>
      have ha := hyields hr hx
      have ho := Reader.onward_advanced ha.onward.sound
      exact (ha.onward_right ho).trans (ih ho.sound)

theorem accounts_listed {item : Attempt α} (hitem : Steady item.run)
    (hyields : ∀ ⦃r x r'⦄, r.Sound → Yields item r x r' → r.Accounts (f x) r')
    {xs : List α} {whole : Bool} (hr : r.Sound) (h : Run (listed item) r (xs, whole) r') :
    r.Accounts (xs.flatMap f) r' :=
  ((run_listed hitem hr).mp h).accounts hitem hyields hr

theorem accounts_listUpTo {close : Punctuation} {item : Attempt α} (hitem : Steady item.run)
    (hyields : ∀ ⦃r x r'⦄, r.Sound → Yields item r x r' → r.Accounts (f x) r')
    {xs : List α} (hr : r.Sound) (h : Yields (listUpTo close item) r xs r') :
    r.Accounts (xs.flatMap f) r' := by
  rw [yields_listUpTo] at h
  split at h
  · obtain ⟨rfl, rfl⟩ := h
    exact .of_onward (Reader.onward_advanced hr)
  · obtain ⟨s, hs, _, rfl⟩ := h
    have ha := accounts_listed hitem hyields hr hs
    exact ha.onward_right (Reader.onward_advanced ha.onward.sound)

theorem accounts_identifier (hr : r.Sound) (hk : r.current.kind = .identifier) :
    r.Accounts [.name ⟨r.current⟩] r.advanced := by
  have hend : r.current.isEnd = false := by simp [Token.isEnd, hk]
  exact (Reader.Accounts.of_onward (Reader.onward_advanced hr)).concat (by rfl)
    (hr.current_written hend)

theorem accounts_name {what : String} {n : Name} (hr : r.Sound)
    (h : Yields (name what) r n r') : r.Accounts [.name n] r' := by
  obtain ⟨hk, rfl, rfl⟩ := yields_name.mp h
  exact accounts_identifier hr hk

theorem givesUp_name {what : String} (hr : r.Sound) (h : Refuses (name what) r r') :
    r.GivesUp r' := by
  obtain ⟨_, rfl⟩ := refuses_name.mp h
  exact .reported hr rfl rfl

theorem accounts_nameOrMissing {what : String} {n : Name} (hr : r.Sound)
    (h : Run (nameOrMissing what) r n r') : r.Accounts [.name n] r' := by
  rw [run_nameOrMissing] at h
  split at h
  · rename_i hk
    obtain ⟨rfl, rfl⟩ := h
    exact accounts_identifier hr hk
  · obtain ⟨_, rfl⟩ := h
    exact (Reader.GivesUp.reported hr rfl rfl).accounts rfl

theorem givesUp_expectPunctuation {p : Punctuation} (hr : r.Sound)
    (h : Refuses (expectPunctuation p) r r') : r.GivesUp r' := by
  obtain ⟨_, rfl⟩ := refuses_expectPunctuation.mp h
  exact .reported hr rfl rfl

theorem Lists.givesUp {item : Attempt α} (hitem : Steady item.run)
    (hrefuses : ∀ ⦃r r'⦄, r.Sound → Refuses item r r' → r.GivesUp r') {xs : List α}
    {whole : Bool} (h : Lists item r xs whole r') (hr : r.Sound) (hwhole : whole = false) :
    r.GivesUp r' := by
  induction h with
  | refused hx => exact hrefuses hr hx
  | last _ _ => simp at hwhole
  | more hx _ _ ih =>
      have ho := hitem.yields hr hx
      have ho' := ho.trans (Reader.onward_advanced ho.sound)
      exact .onward_left ho' (ih ho'.sound hwhole)

theorem givesUp_listUpTo {close : Punctuation} {item : Attempt α} (hitem : Steady item.run)
    (hrefuses : ∀ ⦃r r'⦄, r.Sound → Refuses item r r' → r.GivesUp r') (hr : r.Sound)
    (h : Refuses (listUpTo close item) r r') : r.GivesUp r' := by
  obtain ⟨_, ⟨xs, h⟩ | ⟨xs, s, hs, h⟩⟩ := refuses_listUpTo.mp h
  · exact ((run_listed hitem hr).mp h).givesUp hitem hrefuses hr rfl
  · have ho := steady_listed hitem hr hs
    exact .onward_left ho (givesUp_expectPunctuation ho.sound h)

/-! ### Statements -/

/-- What is asked of expressions: the nodes of one that is read are accounted for, and one
that is not read is given up with an error. -/
structure Expressions.Accounted (e : Expressions) : Prop extends e.Lawful where
  yields : ∀ ⦃c p r x r'⦄, r.Sound → Yields (e c p) r x r' → r.Accounts (Nodes.expression x) r'
  refuses : ∀ ⦃c p r r'⦄, r.Sound → Refuses (e c p) r r' → r.GivesUp r'

section Statements

variable (he : e.Accounted)

include he

theorem accounts_expressionOrMissing {p : Nat} {x : Expr} (hr : r.Sound)
    (h : Run (expressionOrMissing e c p) r x r') : r.Accounts (Nodes.expression x) r' := by
  rcases run_expressionOrMissing.mp h with h | ⟨s, hs, rfl, hr'⟩
  · exact he.yields hr h
  · have hg := he.refuses hr hs
    have ha : r.Accounts [.expression (.missing r.current)] s := hg.accounts rfl
    split at hr'
    · exact hr' ▸ ha
    · exact hr' ▸ ha.onward_right (Reader.onward_lineSkipped hg.onward.sound)

theorem accounts_declarator {d : Name × Option Expr} (hr : r.Sound)
    (h : Yields (declarator e c) r d r') : r.Accounts (.name d.1 :: Nodes.ifAny d.2) r' := by
  obtain ⟨hk, h⟩ := yields_declarator.mp h
  have hn := accounts_identifier hr hk
  split at h
  · obtain ⟨x, hx, rfl⟩ := h
    have ho := Reader.onward_advanced hn.onward.sound
    exact (hn.onward_right ho).trans (accounts_expressionOrMissing he ho.sound hx)
  · obtain ⟨rfl, rfl⟩ := h
    exact hn

theorem accounts_variableList {out : List Stmt × Bool} (hr : r.Sound)
    (h : Run (variableList e c) r out r') : r.Accounts (out.1.flatMap Nodes.stmt) r' := by
  obtain ⟨ds, whole, s, hs, hout⟩ := run_variableList.mp h
  have ho := Reader.onward_advanced hr
  have hds := Reader.Accounts.onward_left ho
    (accounts_listed (steady_declarator he.toLawful) (fun _ _ _ => accounts_declarator he)
      ho.sound hs)
  have hstmts : ∀ t storage, r.Accounts
      ((ds.map fun d => Stmt.variable t storage d.1 d.2).flatMap Nodes.stmt) s := by
    intro t storage
    refine hds.weaken ?_ ?_
    · rw [Nodes.unclosed, List.flatMap_map, List.filterMap_flatMap, Nodes.unclosed,
        List.filterMap_flatMap]
      simp [Nodes.stmt, List.filterMap_cons, Node.unclosed?]
    · simp [Nodes.stmt, Node.isPlaceholder]
  split at hout
  · obtain ⟨b, hb, rfl⟩ := hout
    exact (hstmts _ _).onward_right (steady_succeeds steady_endOfStatement hds.onward.sound hb)
  · obtain ⟨rfl, rfl⟩ := hout
    exact hstmts _ _

theorem accounts_plain {out : List Stmt × Bool} (hr : r.Sound)
    (h : Run (plain e c) r out r') : r.Accounts (out.1.flatMap Nodes.stmt) r' := by
  have ho := Reader.onward_advanced hr
  rw [run_plain] at h
  split at h
  · exact accounts_variableList he hr h
  split at h
  · rcases run_single.mp h with ⟨x, hx, rfl⟩ | ⟨hx, rfl⟩
    · obtain ⟨v, hv, _, rfl⟩ := yields_returned.mp hx
      have hv : r.Accounts (Nodes.ifAny v) r' := by
        rw [yields_returnedValue] at hv
        split at hv
        · obtain ⟨rfl, rfl⟩ := hv
          exact .of_onward ho
        · obtain ⟨y, hy, rfl⟩ := hv
          exact .onward_left ho (he.yields ho.sound hy)
      simpa [Nodes.stmt] using hv.concat (n := .statement (.ret r.current v)) rfl rfl
    · exact .of_onward (ho.trans (onward_returned he.toLawful hr h))
  split at h
  · rcases run_single.mp h with ⟨x, hx, rfl⟩ | ⟨hx, rfl⟩
    · obtain ⟨y, hy, _, rfl⟩ := yields_expressionStatement.mp hx
      simpa [Nodes.stmt] using
        (he.yields hr hy).concat (n := .statement (.expression r.current y)) rfl rfl
    · exact .of_onward ((steady_expressionStatement he.toLawful).refuses hr hx)
  · obtain ⟨rfl, rfl⟩ := h
    exact .of_onward (ho.trans (Reader.onward_reported ho.sound _ rfl))

omit he in
theorem accounts_wholeStatement {body : Reading (List Stmt × Bool)}
    (hbody : ∀ ⦃r out r'⦄, r.Sound → Run body r out r' →
      r.Accounts (out.1.flatMap Nodes.stmt) r')
    {ss : List Stmt} (hr : r.Sound) (h : Run (wholeStatement c body) r ss r') :
    r.Accounts (ss.flatMap Nodes.stmt) r' := by
  obtain ⟨s, hs, rfl⟩ := run_wholeStatement.mp h
  obtain ⟨whole, s, hrun, rfl⟩ := run_recovering.mp hs
  have ha := hbody hr hrun
  have hrec := Reader.onward_recovered (c := c) ha.onward.sound r.current.span.start
  cases whole with
  | true => exact ha.onward_right (Reader.onward_settled ha.onward.sound)
  | false => exact ha.onward_right (hrec.trans (Reader.onward_settled hrec.sound))

theorem accounts_plainStatement {ss : List Stmt} (hr : r.Sound)
    (h : Run (plainStatement e c) r ss r') : r.Accounts (ss.flatMap Nodes.stmt) r' :=
  accounts_wholeStatement (fun _ _ _ => accounts_plain he) hr h

omit he in
theorem accounts_block {statement : Context → Reading (List Stmt)} {closers : List Keyword}
    (hpast : ∀ ⦃c r ss r'⦄, r.Sound → r.atEnd = false → Run (statement c) r ss r' → r.Past r')
    (hstatement : ∀ ⦃c r ss r'⦄, r.Sound → Run (statement c) r ss r' →
      r.Accounts (ss.flatMap Nodes.stmt) r')
    {b : Block} (hr : r.Sound) (h : Run (block statement c closers) r b r') :
    r.Accounts (Nodes.block b) r' := by
  obtain ⟨ss, hss, rfl⟩ := (run_block_repeats hpast hr).mp h
  rw [Nodes.block, Nodes.stmts_eq]
  exact hss.accounts (fun _ _ _ hr _ h => hstatement hr h) hr

/-! ### Declarations -/

omit he in
theorem accounts_parameters {ns : List Name} (hr : r.Sound) (h : Run (parameters c) r ns r') :
    r.Accounts (ns.map .name) r' := by
  have ho := Reader.onward_advanced hr
  rw [run_parameters] at h
  split at h
  · rcases h with h | ⟨s, hs, rfl, rfl⟩
    · have ha := accounts_listUpTo (f := fun n => [.name n]) (steady_name _)
        (fun _ _ _ => accounts_name) ho.sound h
      exact .onward_left ho (by rwa [List.map_eq_flatMap])
    · have hskip := ho.trans ((steady_listUpTo (steady_name _)).refuses ho.sound hs)
      exact .of_onward (hskip.trans (Reader.onward_lineSkipped hskip.sound))
  · obtain ⟨rfl, rfl⟩ := h
    exact .refl hr

theorem accounts_routine {what : String} {t : Token} {closers : List Keyword} {close : Keyword}
    {x : Routine} (hr : r.Sound) (h : Run (routine e c what t closers close) r x r') :
    r.Accounts (Nodes.routine x) r' := by
  obtain ⟨n, s, ps, s₁, b, s₂, hn, hps, hb, closing, hc, rfl⟩ := run_routine.mp h
  have h₁ := accounts_nameOrMissing hr hn
  have h₂ := accounts_parameters h₁.onward.sound hps
  have h₃ := accounts_block (fun _ _ _ _ => past_plainStatement he.toLawful)
    (fun _ _ _ _ => accounts_plainStatement he) h₂.onward.sound hb
  exact ((h₁.trans h₂).trans h₃).onward_right (steady_take? _ h₃.onward.sound hc)

theorem accounts_function {x : Stmt} (hr : r.Sound) (h : Run (function e c) r x r') :
    r.Accounts (Nodes.stmt x) r' := by
  obtain ⟨f, hf, rfl⟩ := run_function.mp h
  have ho : r.Onward (if r.current.isKeyword .kwStatic then r.advanced.advanced else r.advanced) := by
    have ha := Reader.onward_advanced hr
    split
    · exact ha.trans (Reader.onward_advanced ha.sound)
    · exact ha
  exact (Reader.Accounts.onward_left ho (accounts_routine he ho.sound hf)).concat rfl rfl

/-- The nodes of a member of a class. -/
def Member.nodes : Member → List Node
  | .data a => [.name a.name]
  | .method m => Nodes.routine m

omit he in
theorem accounts_attributes {out : List Member × Bool} (hr : r.Sound)
    (h : Run (attributes c) r out r') : r.Accounts (out.1.flatMap Member.nodes) r' := by
  obtain ⟨ns, whole, s, hs, hout⟩ := run_attributes.mp h
  have ho := Reader.onward_advanced hr
  have hns := Reader.Accounts.onward_left ho (accounts_listed (f := fun n => [.name n])
    (steady_name _) (fun _ _ _ => accounts_name) ho.sound hs)
  have hmembers : ∀ t, r.Accounts
      ((ns.map fun n => Member.data ⟨t, n⟩).flatMap Member.nodes) s := by
    intro t
    rwa [List.flatMap_map]
  split at hout
  · obtain ⟨b, hb, rfl⟩ := hout
    exact (hmembers _).onward_right (steady_succeeds steady_endOfStatement hns.onward.sound hb)
  · obtain ⟨rfl, rfl⟩ := hout
    exact hmembers _

theorem accounts_member {out : List Member × Bool} (hr : r.Sound) (h : Run (member e c) r out r') :
    r.Accounts (out.1.flatMap Member.nodes) r' := by
  have ho := Reader.onward_advanced hr
  rw [run_member] at h
  split at h
  · exact accounts_attributes hr h
  split at h
  · obtain ⟨m, hm, rfl⟩ := run_method.mp h
    simpa [Member.nodes] using Reader.Accounts.onward_left ho (accounts_routine he ho.sound hm)
  · obtain ⟨rfl, rfl⟩ := h
    exact .of_onward (Reader.onward_reported hr _ rfl)

theorem accounts_members {ms : List Member} (hr : r.Sound) (h : Run (members e c) r ms r') :
    r.Accounts (ms.flatMap Member.nodes) r' := by
  refine ((run_members_repeats he.toLawful hr).mp h).accounts (fun r ms r' hr _ h => ?_) hr
  obtain ⟨whole, s, hrun, rfl⟩ := run_recovering.mp h
  have ha := accounts_member he hr hrun
  cases whole with
  | true => exact ha
  | false => exact ha.onward_right (Reader.onward_recovered ha.onward.sound _)

omit he in
/-- The tree lists the attributes of a class before its methods. -/
theorem accounts_parted {ms : List Member} (h : r.Accounts (ms.flatMap Member.nodes) r') :
    r.Accounts ((ms.filterMap Member.attribute?).map (fun a => .name a.name) ++
      Nodes.routines (ms.filterMap Member.method?)) r' := by
  have hunclosed : ∀ ms : List Member,
      Nodes.unclosed ((ms.filterMap Member.attribute?).map (fun a => .name a.name) ++
        Nodes.routines (ms.filterMap Member.method?)) =
      Nodes.unclosed (ms.flatMap Member.nodes) := by
    intro ms
    induction ms with
    | nil => rfl
    | cons m ms ih =>
        rw [Nodes.unclosed_append] at ih
        rw [List.flatMap_cons, Nodes.unclosed_append, Nodes.unclosed_append, ← ih]
        cases m with
        | data a => rfl
        | method m =>
            have hnames : ∀ as : List Attribute,
                Nodes.unclosed (as.map fun a => .name a.name) = [] := by
              intro as
              simp [Nodes.unclosed, Node.unclosed?]
            simp [Member.attribute?, Member.method?, Member.nodes, Nodes.routines, hnames,
              Nodes.unclosed_append]
  have hplaceholders : ∀ ms : List Member,
      ((ms.filterMap Member.attribute?).map (fun a => Node.name a.name) ++
        Nodes.routines (ms.filterMap Member.method?)).any Node.isPlaceholder = true →
      (ms.flatMap Member.nodes).any Node.isPlaceholder = true := by
    intro ms
    induction ms with
    | nil => exact id
    | cons m ms ih =>
        rw [List.flatMap_cons, List.any_append, Bool.or_eq_true]
        simp only [List.any_append, Bool.or_eq_true] at ih ⊢
        cases m with
        | data a =>
            simp only [List.filterMap_cons, Member.attribute?, Member.method?, Member.nodes,
              List.map_cons, List.any_cons, List.any_nil, Bool.or_eq_true]
            tauto
        | method m =>
            simp only [List.filterMap_cons, Member.attribute?, Member.method?, Member.nodes,
              Nodes.routines, List.any_append, Bool.or_eq_true]
            tauto
  exact h.weaken (hunclosed ms ▸ List.Sublist.refl _) (hplaceholders ms)

theorem accounts_classDefinition {x : Stmt} (hr : r.Sound) (hend : r.atEnd = false)
    (h : Run (classDefinition e c) r x r') : r.Accounts (Nodes.stmt x) r' := by
  obtain ⟨n, s, parent, s₁, ms, s₂, hn, hp, hms, closed, hc, rfl⟩ := run_classDefinition.mp h
  have h₁ := accounts_nameOrMissing (Reader.sound_advanced hr) hn
  have h₂ : s.Accounts (parent.toList.map .name) s₁ := by
    have ho := Reader.onward_advanced h₁.onward.sound
    rw [run_parentClass] at hp
    split at hp
    · rcases hp with ⟨p, hp, rfl⟩ | ⟨hp, rfl⟩
      · exact .onward_left ho (accounts_name ho.sound hp)
      · exact .of_onward (ho.trans ((steady_name _).refuses ho.sound hp))
    · obtain ⟨rfl, rfl⟩ := hp
      exact .refl h₁.onward.sound
  have h₃ := accounts_parted (accounts_members he h₂.onward.sound hms)
  have hparts := (h₁.trans h₂).trans h₃
  have hclass := Reader.Accounts.opened hr hend hparts hc
    (n := .statement (.classDef ⟨r.current, n, parent, ms.filterMap Member.attribute?,
      ms.filterMap Member.method?, closed⟩)) rfl rfl
  simpa [Nodes.stmt, Nodes.classDefinition] using hclass

theorem accounts_general {out : List Stmt × Bool} (hr : r.Sound) (h : Run (general e c) r out r') :
    r.Accounts (out.1.flatMap Nodes.stmt) r' := by
  rw [run_general] at h
  split at h
  · exact accounts_plain he hr h
  split at h
  · obtain ⟨f, hf, rfl⟩ := h
    simpa using accounts_function he hr hf
  split at h
  · rename_i hclass
    obtain ⟨d, hd, rfl⟩ := h
    simpa using accounts_classDefinition he hr (Reader.atEnd_of_keyword hclass) hd
  · exact accounts_plain he hr h

theorem accounts_statement {ss : List Stmt} (hr : r.Sound) (h : Run (statement e c) r ss r') :
    r.Accounts (ss.flatMap Nodes.stmt) r' :=
  accounts_wholeStatement (fun _ _ _ => accounts_general he) hr (run_statement.mp h)

/-! ### Operands -/

theorem accounts_arguments {close : Punctuation} {xs : List Expr} (hr : r.Sound)
    (h : Yields (arguments e c close) r xs r') : r.Accounts (Nodes.expressions xs) r' := by
  rw [Nodes.expressions_eq]
  exact accounts_listUpTo (steady_argument he.toLawful)
    (fun _ _ _ hr h => accounts_expressionOrMissing he hr (yields_lift.mp h)) hr h

theorem givesUp_arguments {close : Punctuation} (hr : r.Sound)
    (h : Refuses (arguments e c close) r r') : r.GivesUp r' :=
  givesUp_listUpTo (steady_argument he.toLawful) (fun _ _ _ h => absurd h refuses_lift) hr h

theorem accounts_body {closers : List Keyword} {b : Block} (hr : r.Sound)
    (h : Run (body e c closers) r b r') : r.Accounts (Nodes.block b) r' :=
  accounts_block (fun _ _ _ _ => past_statement he.toLawful)
    (fun _ _ _ _ => accounts_statement he) hr h

theorem accounts_guarded {t : Token} {closers : List Keyword} {g : Guarded} (hr : r.Sound)
    (h : Run (guarded e c t closers) r g r') : r.Accounts (Nodes.guarded g) r' := by
  obtain ⟨x, s, b, hx, hb, rfl⟩ := run_guarded.mp h
  have h₁ := accounts_expressionOrMissing he hr hx
  exact h₁.trans (accounts_body he h₁.onward.sound hb)

theorem accounts_branch {x : Expr} (hr : r.Sound) (hend : r.atEnd = false)
    (h : Run (branch e c) r x r') : r.Accounts (Nodes.expression x) r' := by
  obtain ⟨g, s, gs, s₁, b, s₂, hg, hgs, hb, closed, hc, rfl⟩ := run_branch.mp h
  have h₁ := accounts_guarded he (Reader.sound_advanced hr) hg
  have h₂ : s.Accounts (Nodes.branches gs) s₁ := by
    rw [Nodes.branches_eq]
    refine ((run_otherBranches he.toLawful h₁.onward.sound).mp hgs).accounts
      (fun r gs r' hr hm h => ?_) h₁.onward.sound
    obtain ⟨g, hg, rfl⟩ := run_elseIf.mp h
    have ho := Reader.onward_advanced hr
    simpa using Reader.Accounts.onward_left ho (accounts_guarded he ho.sound hg)
  have h₃ : s₁.Accounts (Nodes.blockIfAny b) s₂ := by
    rw [run_alternative] at hb
    split at hb
    · obtain ⟨b, hb, rfl⟩ := hb
      have ho := Reader.onward_advanced h₂.onward.sound
      exact .onward_left ho (accounts_body he ho.sound hb)
    · obtain ⟨rfl, rfl⟩ := hb
      exact .refl h₂.onward.sound
  have htoken : g.token = r.current := by
    obtain ⟨_, _, _, _, _, rfl⟩ := run_guarded.mp hg
    rfl
  exact Reader.Accounts.opened hr hend ((h₁.trans h₂).trans h₃) hc
    (by cases closed <;> simp [Node.unclosed?, htoken]) rfl

theorem accounts_whileLoop {x : Expr} (hr : r.Sound) (hend : r.atEnd = false)
    (h : Run (whileLoop e c) r x r') : r.Accounts (Nodes.expression x) r' := by
  obtain ⟨s, g, s₁, hs, hg, closed, hc, rfl⟩ := run_whileLoop.mp h
  have h₁ : r.advanced.Onward s := by
    split at hs
    · exact steady_requireKeyword _ (Reader.sound_advanced hr) hs
    · exact hs ▸ .refl (Reader.sound_advanced hr)
  have h₂ := Reader.Accounts.onward_left h₁ (accounts_guarded he h₁.sound hg)
  have htoken : g.token = r.current := by
    obtain ⟨_, _, _, _, _, rfl⟩ := run_guarded.mp hg
    rfl
  exact Reader.Accounts.opened hr hend h₂ hc
    (by cases closed <;> simp [Node.unclosed?, htoken]) rfl

theorem accounts_forLoop {x : Expr} (hr : r.Sound) (hend : r.atEnd = false)
    (h : Run (forLoop e c) r x r') : r.Accounts (Nodes.expression x) r' := by
  obtain ⟨n, s, s₁, a, s₂, s₃, b, s₄, step, s₅, bl, s₆, closed, s₇, hn, hs, ha, hto, hb, hst, hbl,
    hc, hlast, rfl⟩ := run_forLoop.mp h
  have h₁ := accounts_nameOrMissing (Reader.sound_advanced hr) hn
  have h₂ := h₁.onward_right (steady_counterSign _ h₁.onward.sound hs)
  have h₃ := h₂.trans (accounts_expressionOrMissing he h₂.onward.sound ha)
  have h₄ := h₃.onward_right (steady_requireKeyword _ h₃.onward.sound hto)
  have h₅ := h₄.trans (accounts_expressionOrMissing he h₄.onward.sound hb)
  have hstep : s₄.Accounts (Nodes.ifAny step) s₅ := by
    rw [run_stepClause] at hst
    split at hst
    · obtain ⟨y, hy, rfl⟩ := hst
      have ho := Reader.onward_advanced h₅.onward.sound
      exact .onward_left ho (accounts_expressionOrMissing he ho.sound hy)
    · obtain ⟨rfl, rfl⟩ := hst
      exact .refl h₅.onward.sound
  have h₆ := h₅.trans hstep
  have h₇ := h₆.trans (accounts_body he h₆.onward.sound hbl)
  have h₈ := Reader.Accounts.opened hr hend h₇ hc
    (n := .expression (.forLoop r.current n a b step bl closed))
    (by cases closed <;> rfl) rfl
  have h₉ : r.Accounts (Nodes.expression (.forLoop r.current n a b step bl closed)) s₇ := by
    simpa [Nodes.expression] using h₈
  split at hlast
  · exact h₉.onward_right (steady_repeatedCounter _ h₉.onward.sound hlast)
  · exact hlast ▸ h₉

theorem accounts_operand {x : Expr} (hr : r.Sound) (h : Yields (operand e c) r x r') :
    r.Accounts (Nodes.expression x) r' := by
  obtain ⟨s, hs, hx⟩ := yields_operand.mp h
  have hend := atEnd_of_starter hs
  have ho := Reader.onward_advanced hr
  have hleaf : r.Accounts [] r.advanced := .of_onward ho
  cases s with
  | name =>
      simp only [begun, yields_bind, yields_lift, run_advance, yields_pure] at hx
      obtain ⟨_, _, ⟨rfl, rfl⟩, rfl, rfl⟩ := hx
      exact (hleaf.concat (n := .name ⟨r.current⟩) rfl (hr.current_written hend)).concat rfl rfl
  | date | boolean | nil =>
      simp only [begun, yields_bind, yields_lift, run_advance, yields_pure] at hx
      obtain ⟨_, _, ⟨rfl, rfl⟩, rfl, rfl⟩ := hx
      exact hleaf.concat rfl rfl
  | integer =>
      obtain ⟨_, rfl, rfl⟩ := yields_integer.mp hx
      exact hleaf.concat rfl rfl
  | float =>
      obtain ⟨_, _, rfl, rfl⟩ := yields_float.mp hx
      exact hleaf.concat rfl rfl
  | string =>
      obtain ⟨rfl, rfl⟩ := run_string.mp (yields_lift.mp hx)
      exact hleaf.concat rfl rfl
  | unary op =>
      obtain ⟨y, hy, rfl⟩ := run_unary.mp (yields_lift.mp hx)
      exact (Reader.Accounts.onward_left ho (accounts_expressionOrMissing he ho.sound hy)).concat
        rfl rfl
  | group =>
      obtain ⟨s, hy, _, rfl⟩ := yields_group.mp hx
      have ha := Reader.Accounts.onward_left ho (he.yields ho.sound hy)
      exact ha.onward_right (Reader.onward_advanced ha.onward.sound)
  | array =>
      obtain ⟨xs, hxs, rfl⟩ := yields_array.mp hx
      exact (Reader.Accounts.onward_left ho (accounts_arguments he ho.sound hxs)).concat rfl rfl
  | ownMember =>
      obtain ⟨n, hn, rfl⟩ := yields_ownMember.mp hx
      have ha := Reader.Accounts.onward_left ho (accounts_name ho.sound hn)
      have hm := ha.concat (n := .expression (.member r.current
        (.name ⟨.implied (.keyword .kwSelf) "Self" r.current⟩) n)) rfl rfl
      exact (hm.cons (n := .expression (.name ⟨.implied (.keyword .kwSelf) "Self" r.current⟩))
        rfl rfl).cons (n := .name ⟨.implied (.keyword .kwSelf) "Self" r.current⟩) rfl rfl
  | branch => exact accounts_branch he hr hend (yields_lift.mp hx)
  | whileLoop => exact accounts_whileLoop he hr hend (yields_lift.mp hx)
  | forLoop => exact accounts_forLoop he hr hend (yields_lift.mp hx)

theorem givesUp_operand (hr : r.Sound) (h : Refuses (operand e c) r r') : r.GivesUp r' := by
  have ho := Reader.onward_advanced hr
  rcases refuses_operand.mp h with ⟨s, _, hx⟩ | ⟨_, rfl⟩
  · cases s with
    | name | date | boolean | nil | string | unary | branch | whileLoop | forLoop =>
        simp [begun] at hx
    | integer =>
        obtain ⟨_, rfl⟩ := refuses_integer.mp hx
        exact .onward_left ho (.reported ho.sound rfl rfl)
    | float =>
        obtain ⟨_, rfl⟩ := refuses_float.mp hx
        exact .onward_left ho (.reported ho.sound rfl rfl)
    | group =>
        rcases refuses_group.mp hx with hx | ⟨y, s, hy, hx⟩
        · exact .onward_left ho (he.refuses ho.sound hx)
        · have ho' := ho.trans (he.past ho.sound hy).onward
          exact .onward_left ho' (givesUp_expectPunctuation ho'.sound hx)
    | array => exact .onward_left ho (givesUp_arguments he ho.sound (refuses_array.mp hx))
    | ownMember => exact .onward_left ho (givesUp_name ho.sound (refuses_ownMember.mp hx))
  · exact .reported hr rfl rfl

end Statements

/-! ### Chains -/

theorem givesUp_silenced (hr : r.Sound) : r.GivesUp r.silenced :=
  ⟨Reader.onward_silenced hr, .inl (Reader.tooDeep_silenced hr)⟩

theorem givesUp_nextStep {p : Nat} {bracket : Option Token} (hr : r.Sound)
    (h : Refuses (nextStep c p bracket) r r') : r.GivesUp r' := by
  cases bracket with
  | none => exact absurd h refuses_nextStep_none
  | some t => exact givesUp_expectPunctuation hr (refuses_nextStep_some.mp h).2

/-- A link keeps the nodes of what is left of it. -/
theorem accounts_attach (he : e.Accounted) {s : Reader} {left : Expr} {step : Step}
    {out : Expr × Option Token} (hleft : s.Accounts (Nodes.expression left) r)
    (h : Yields (attach e c left step) r out r') : s.Accounts (Nodes.expression out.1) r' := by
  have hr := hleft.onward.sound
  have ho := Reader.onward_advanced hr
  have hleft' := hleft.onward_right ho
  have hsubscript : ∀ {bracket r}, s.Accounts (Nodes.expression left) r →
      Run (subscript e c bracket left) r out r' → s.Accounts (Nodes.expression out.1) r' := by
    intro bracket r hleft h
    obtain ⟨i, hi, rfl⟩ := run_subscript.mp h
    exact (hleft.trans (accounts_expressionOrMissing he hleft.onward.sound hi)).concat rfl rfl
  obtain l | bracket := step
  · cases l with
    | binary op =>
        obtain ⟨y, hy, rfl⟩ := yields_attach_binary.mp h
        exact (hleft'.trans (accounts_expressionOrMissing he ho.sound hy)).concat rfl rfl
    | assign =>
        obtain ⟨y, hy, rfl⟩ := yields_attach_assign.mp h
        split at hy
        · exact (hleft'.trans (accounts_expressionOrMissing he ho.sound hy)).concat rfl rfl
        · have hreport := hleft'.onward_right
            (Reader.onward_reported ho.sound (.notAssignable left.token) rfl)
          exact (hreport.trans (accounts_expressionOrMissing he hreport.onward.sound hy)).concat
            rfl rfl
    | call =>
        obtain ⟨xs, hxs, rfl⟩ := yields_attach_call.mp h
        exact (hleft'.trans (accounts_arguments he ho.sound hxs)).concat rfl rfl
    | index => exact hsubscript hleft' (yields_attach_index.mp h)
    | member =>
        obtain ⟨n, hn, rfl⟩ := yields_attach_member.mp h
        have hm := (hleft'.trans (accounts_name ho.sound hn)).concat
          (n := .expression (.member r.current left n)) rfl rfl
        simpa [Nodes.expression] using hm
  · exact hsubscript hleft (yields_attach_subscript.mp h)

theorem givesUp_attach (he : e.Accounted) {left : Expr} {step : Step} (hr : r.Sound)
    (h : Refuses (attach e c left step) r r') : r.GivesUp r' := by
  have ho := Reader.onward_advanced hr
  rcases refuses_attach.mp h with ⟨_, h⟩ | ⟨_, h⟩
  · exact .onward_left ho (givesUp_arguments he ho.sound h)
  · exact .onward_left ho (givesUp_name ho.sound h)

theorem accounts_chain {n p : Nat} (he : ∀ m < n, (expression m).Accounted) {s : Reader}
    {bracket : Option Token} {left x : Expr} (hleft : s.Accounts (Nodes.expression left) r)
    (h : Yields (chain n c p bracket left) r x r') : s.Accounts (Nodes.expression x) r' := by
  induction n generalizing bracket left r with
  | zero =>
      rcases yields_chain.mp h with ⟨hs, rfl⟩ | ⟨_, _, _, _, _, _, _, hn, _⟩
      · exact hleft.onward_right ((steady_nextStep p bracket).yields hleft.onward.sound hs)
      · simp at hn
  | succ n ih =>
      rcases yields_chain.mp h with ⟨hs, rfl⟩ | ⟨step, s', m, y, b, s'', hstep, hm, hy, hx⟩
      · exact hleft.onward_right ((steady_nextStep p bracket).yields hleft.onward.sound hs)
      · obtain rfl := Nat.succ.inj hm
        have hleft' := hleft.onward_right
          ((steady_nextStep p bracket).yields hleft.onward.sound hstep)
        have hlink := accounts_attach (he n (Nat.lt_succ_self n)) hleft' hy
        exact ih (fun m hm => he m (Nat.lt_succ_of_lt hm)) hlink hx

theorem givesUp_chain {n p : Nat} (he : ∀ m < n, (expression m).Accounted)
    {bracket : Option Token} {left : Expr} (hr : r.Sound)
    (h : Refuses (chain n c p bracket left) r r') : r.GivesUp r' := by
  induction n generalizing bracket left r with
  | zero =>
      rcases refuses_chain.mp h with h | ⟨step, s, hstep, ⟨_, rfl⟩ | ⟨_, hn, _⟩⟩
      · exact givesUp_nextStep hr h
      · have ho := (steady_nextStep p bracket).yields hr hstep
        exact .onward_left ho (givesUp_silenced ho.sound)
      · simp at hn
  | succ n ih =>
      have hn := he n (Nat.lt_succ_self n)
      rcases refuses_chain.mp h with h | ⟨step, s, hstep, ⟨hz, _⟩ | ⟨m, hm, h⟩⟩
      · exact givesUp_nextStep hr h
      · simp at hz
      · obtain rfl := Nat.succ.inj hm
        have ho := (steady_nextStep p bracket).yields hr hstep
        rcases h with h | ⟨y, b, s', hy, h⟩
        · exact .onward_left ho (givesUp_attach hn ho.sound h)
        · have ho' := ho.trans ((steady_attach hn.toLawful _ _).yields ho.sound hy)
          exact .onward_left ho' (ih (fun m hm => he m (Nat.lt_succ_of_lt hm)) ho'.sound h)

/-- Whatever its depth, reading an expression accounts for its nodes. -/
theorem accounted_expression (n : Nat) : (expression n).Accounted := by
  induction n using Nat.strongRecOn with
  | ind n ih =>
      refine ⟨lawful_expression n, fun c p r x r' hr h => ?_, fun c p r r' hr h => ?_⟩
      · cases n with
        | zero => exact absurd h yields_expression_zero
        | succ n =>
            obtain ⟨left, s, hleft, hx⟩ := yields_expression_succ.mp h
            exact accounts_chain (fun m hm => ih m (Nat.lt_succ_of_lt hm))
              (accounts_operand (ih n (Nat.lt_succ_self n)) hr hleft) hx
      · cases n with
        | zero => exact refuses_expression_zero.mp h ▸ givesUp_silenced hr
        | succ n =>
            have hn := ih n (Nat.lt_succ_self n)
            rcases refuses_expression_succ.mp h with h | ⟨left, s, hleft, h⟩
            · exact givesUp_operand hn hr h
            · have ho := (past_operand hn.toLawful hr hleft).onward
              exact .onward_left ho (givesUp_chain (fun m hm => ih m (Nat.lt_succ_of_lt hm))
                ho.sound h)

end Grammar

end Clipper
