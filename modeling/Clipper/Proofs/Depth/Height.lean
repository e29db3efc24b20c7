import Clipper.Proofs.Reading.Text

/-!
How high the trees of expressions are that reading builds. A chain spends depth on each
of its links but not on what its first operand has spent already, so that the bound on
an expression read with depth `n` grows with the square of `n`.
-/

namespace Clipper

namespace Height

mutual

/-- The height of an expression: one for a leaf, and one more than the highest part for
any other, with the headers and the statements of conditionals and loops among the parts. -/
def expression : Expr → Nat
  | .name _ | .integer _ _ | .float _ _ | .string _ _ _ | .date _ | .boolean _ _ | .nil _
  | .missing _ => 1
  | .array _ elements => expressions elements + 1
  | .unary _ _ operand => expression operand + 1
  | .binary _ _ left right => max (expression left) (expression right) + 1
  | .call _ callee arguments => max (expression callee) (expressions arguments) + 1
  | .index _ indexed position => max (expression indexed) (expression position) + 1
  | .member _ object _ => expression object + 1
  | .assign _ target value => max (expression target) (expression value) + 1
  | .branch first others alternative _ =>
      max (guarded first) (max (branches others) (blockIfAny alternative)) + 1
  | .whileLoop g _ => guarded g + 1
  | .forLoop _ _ start stop step body _ =>
      max (expression start) (max (expression stop) (max (ifAny step) (block body))) + 1

def expressions : List Expr → Nat
  | [] => 0
  | e :: es => max (expression e) (expressions es)

def ifAny : Option Expr → Nat
  | none => 0
  | some e => expression e

def guarded : Guarded → Nat
  | ⟨_, condition, body⟩ => max (expression condition) (block body)

def branches : List Guarded → Nat
  | [] => 0
  | g :: gs => max (guarded g) (branches gs)

def blockIfAny : Option Block → Nat
  | none => 0
  | some b => block b

def block : Block → Nat
  | ⟨_, statements⟩ => stmts statements

def stmts : List Stmt → Nat
  | [] => 0
  | s :: ss => max (stmt s) (stmts ss)

/-- The height of the highest expression in a statement. -/
def stmt : Stmt → Nat
  | .function _ r => routine r
  | .classDef definition => classDefinition definition
  | .variable _ _ _ value => ifAny value
  | .ret _ value => ifAny value
  | .expression _ value => expression value

def routine : Routine → Nat
  | ⟨_, _, _, body, _⟩ => block body

def routines : List Routine → Nat
  | [] => 0
  | r :: rs => max (routine r) (routines rs)

def classDefinition : ClassDef → Nat
  | ⟨_, _, _, _, methods, _⟩ => routines methods

end

variable {h : Nat}

/-- The height of a list is that of its highest member. -/
theorem le_iff_of_max {α : Type} {height : List α → Nat} {member : α → Nat} (hnil : height [] = 0)
    (hcons : ∀ x xs, height (x :: xs) = max (member x) (height xs)) {xs : List α} :
    height xs ≤ h ↔ ∀ x ∈ xs, member x ≤ h := by
  induction xs with
  | nil => simp [hnil]
  | cons x xs ih => rw [hcons, Nat.max_le, ih, List.forall_mem_cons]

theorem expressions_le_iff {es : List Expr} : expressions es ≤ h ↔ ∀ e ∈ es, expression e ≤ h :=
  le_iff_of_max rfl fun _ _ => rfl

theorem branches_le_iff {gs : List Guarded} : branches gs ≤ h ↔ ∀ g ∈ gs, guarded g ≤ h :=
  le_iff_of_max rfl fun _ _ => rfl

theorem stmts_le_iff {ss : List Stmt} : stmts ss ≤ h ↔ ∀ s ∈ ss, stmt s ≤ h :=
  le_iff_of_max rfl fun _ _ => rfl

theorem routines_le_iff {rs : List Routine} : routines rs ≤ h ↔ ∀ r ∈ rs, routine r ≤ h :=
  le_iff_of_max rfl fun _ _ => rfl

end Height

/-- The height of the highest expression of a program. -/
def Program.height (p : Program) : Nat := Height.stmts p.statements

namespace Grammar

variable {α : Type} {e : Expressions} {c : Context} {r r' : Reader} {P : α → Prop} {h : Nat}

/-! ### What all results of a repetition or a list have in common -/

theorem forall_repeated {more : Reader → Bool} {body : Reading (List α)}
    (hbody : ∀ ⦃r xs r'⦄, Run body r xs r' → ∀ x ∈ xs, P x) {xs : List α}
    (hrun : Run (repeated more body) r xs r') : ∀ x ∈ xs, P x := by
  have hgo : ∀ (rounds : List Token) (r : Reader) (xs : List α),
      Run (repeated.go more body rounds) r xs r' → ∀ x ∈ xs, P x := by
    intro rounds
    induction rounds with
    | nil =>
        intro r xs hrun
        obtain ⟨rfl, _⟩ := run_pure.mp hrun
        simp
    | cons t rounds ih =>
        intro r xs hrun
        rw [run_repeated_go_cons] at hrun
        split at hrun
        · obtain ⟨ys, s, zs, hys, hzs, rfl⟩ := hrun
          exact List.forall_mem_append.mpr ⟨hbody hys, ih s zs hzs⟩
        · obtain ⟨rfl, _⟩ := hrun
          simp
  rw [repeated, run_bind] at hrun
  obtain ⟨s, _, _, hrun⟩ := hrun
  exact hgo _ _ _ hrun

theorem forall_listed {item : Attempt α} (hitem : ∀ ⦃r x r'⦄, Yields item r x r' → P x)
    {out : List α × Bool} (hrun : Run (listed item) r out r') : ∀ x ∈ out.1, P x := by
  have hgo : ∀ (rounds : List Token) (r : Reader) (xs : List α) (whole : Bool),
      Run (listed.go item rounds) r (xs, whole) r' → ∀ x ∈ xs, P x := by
    intro rounds
    induction rounds with
    | nil =>
        intro r xs whole hrun
        obtain ⟨hout, _⟩ := run_pure.mp hrun
        obtain ⟨rfl, _⟩ := Prod.mk.inj hout
        simp
    | cons t rounds ih =>
        intro r xs whole hrun
        rcases run_listed_go_cons.mp hrun with ⟨x, s, hx, hrest⟩ | ⟨_, rfl, _⟩
        · split at hrest
          · obtain ⟨ys, hys, rfl⟩ := hrest
            exact List.forall_mem_cons.mpr ⟨hitem hx, ih _ _ _ hys⟩
          · obtain ⟨rfl, _⟩ := hrest
            simpa using hitem hx
        · simp
  rw [listed, run_bind] at hrun
  obtain ⟨s, _, _, hrun⟩ := hrun
  exact hgo _ _ _ _ hrun

theorem forall_listUpTo {close : Punctuation} {item : Attempt α}
    (hitem : ∀ ⦃r x r'⦄, Yields item r x r' → P x) {xs : List α}
    (hrun : Yields (listUpTo close item) r xs r') : ∀ x ∈ xs, P x := by
  rw [yields_listUpTo] at hrun
  split at hrun
  · obtain ⟨rfl, _⟩ := hrun
    simp
  · obtain ⟨s, hs, _⟩ := hrun
    exact forall_listed hitem hs

theorem forall_recovering {body : Reading (List α × Bool)}
    (hbody : ∀ ⦃r out r'⦄, Run body r out r' → ∀ x ∈ out.1, P x) {xs : List α}
    (hrun : Run (recovering c body) r xs r') : ∀ x ∈ xs, P x := by
  obtain ⟨whole, s, hs, _⟩ := run_recovering.mp hrun
  exact hbody hs

theorem forall_single {a : Attempt α} (ha : ∀ ⦃r x r'⦄, Yields a r x r' → P x)
    {out : List α × Bool} (hrun : Run (single a) r out r') : ∀ x ∈ out.1, P x := by
  rcases run_single.mp hrun with ⟨x, hx, rfl⟩ | ⟨_, rfl⟩
  · simpa using ha hx
  · simp

/-! ### Statements -/

/-- Every expression read is at most so high. -/
def Expressions.Within (e : Expressions) (h : Nat) : Prop :=
  ∀ ⦃c p r x r'⦄, Yields (e c p) r x r' → Height.expression x ≤ h

section Statements

variable (he : e.Within h) (hpos : 0 < h)

include he hpos

theorem height_expressionOrMissing {p : Nat} {x : Expr}
    (hrun : Run (expressionOrMissing e c p) r x r') : Height.expression x ≤ h := by
  rcases run_expressionOrMissing.mp hrun with hx | ⟨_, _, rfl, _⟩
  · exact he hx
  · exact hpos

theorem height_declarator {d : Name × Option Expr} (hrun : Yields (declarator e c) r d r') :
    Height.ifAny d.2 ≤ h := by
  obtain ⟨_, hd⟩ := yields_declarator.mp hrun
  split at hd
  · obtain ⟨x, hx, rfl⟩ := hd
    exact height_expressionOrMissing he hpos hx
  · obtain ⟨rfl, _⟩ := hd
    exact Nat.zero_le _

theorem height_variableList {out : List Stmt × Bool} (hrun : Run (variableList e c) r out r') :
    ∀ s ∈ out.1, Height.stmt s ≤ h := by
  obtain ⟨ds, whole, s, hs, hout⟩ := run_variableList.mp hrun
  have hds : ∀ d ∈ ds, Height.ifAny d.2 ≤ h :=
    forall_listed (fun _ _ _ => height_declarator he hpos) hs
  have hmap : out.1 = ds.map fun d => .variable r.current (storageOf r.current) d.1 d.2 := by
    split at hout
    · obtain ⟨_, _, rfl⟩ := hout
      rfl
    · obtain ⟨rfl, _⟩ := hout
      rfl
  rw [hmap]
  intro s hmem
  obtain ⟨d, hd, rfl⟩ := List.mem_map.mp hmem
  exact hds d hd

theorem height_plain {out : List Stmt × Bool} (hrun : Run (plain e c) r out r') :
    ∀ s ∈ out.1, Height.stmt s ≤ h := by
  rw [run_plain] at hrun
  split at hrun
  · exact height_variableList he hpos hrun
  split at hrun
  · refine forall_single (fun r s r' hs => ?_) hrun
    obtain ⟨v, hv, _, rfl⟩ := yields_returned.mp hs
    rw [yields_returnedValue] at hv
    split at hv
    · obtain ⟨rfl, _⟩ := hv
      exact Nat.zero_le _
    · obtain ⟨x, hx, rfl⟩ := hv
      exact he hx
  split at hrun
  · refine forall_single (fun r s r' hs => ?_) hrun
    obtain ⟨x, hx, _, rfl⟩ := yields_expressionStatement.mp hs
    exact he hx
  · obtain ⟨rfl, _⟩ := hrun
    simp

theorem height_plainStatement {ss : List Stmt} (hrun : Run (plainStatement e c) r ss r') :
    ∀ s ∈ ss, Height.stmt s ≤ h := by
  obtain ⟨s, hs, _⟩ := run_wholeStatement.mp hrun
  exact forall_recovering (fun _ _ _ => height_plain he hpos) hs

omit he hpos in
theorem height_block {statement : Context → Reading (List Stmt)} {closers : List Keyword}
    (hstatement : ∀ ⦃c r ss r'⦄, Run (statement c) r ss r' → ∀ s ∈ ss, Height.stmt s ≤ h)
    {b : Block} (hrun : Run (block statement c closers) r b r') : Height.block b ≤ h := by
  obtain ⟨ss, hss, rfl⟩ := run_block.mp hrun
  exact Height.stmts_le_iff.mpr (forall_repeated (fun _ _ _ hb => hstatement hb) hss)

theorem height_routine {what : String} {t : Token} {closers : List Keyword} {close : Keyword}
    {x : Routine} (hrun : Run (routine e c what t closers close) r x r') :
    Height.routine x ≤ h := by
  obtain ⟨n, s, ps, s₁, b, s₂, _, _, hb, _, _, rfl⟩ := run_routine.mp hrun
  exact height_block (fun _ _ _ _ => height_plainStatement he hpos) hb

theorem height_members {ms : List Member} (hrun : Run (members e c) r ms r') :
    ∀ m ∈ ms.filterMap Member.method?, Height.routine m ≤ h := by
  have hall : ∀ m ∈ ms, ∀ x, m.method? = some x → Height.routine x ≤ h := by
    refine forall_repeated (fun r ms r' hm => ?_) (run_members.mp hrun)
    refine forall_recovering (fun r out r' hm => ?_) hm
    rw [run_member] at hm
    split at hm
    · obtain ⟨ns, whole, s, _, hout⟩ := run_attributes.mp hm
      have hmap : out.1 = ns.map fun n => .data ⟨r.current, n⟩ := by
        split at hout
        · obtain ⟨_, _, rfl⟩ := hout
          rfl
        · obtain ⟨rfl, _⟩ := hout
          rfl
      simp [hmap, Member.method?]
    split at hm
    · obtain ⟨x, hx, rfl⟩ := run_method.mp hm
      simpa [Member.method?] using height_routine he hpos hx
    · obtain ⟨rfl, _⟩ := hm
      simp
  intro x hx
  obtain ⟨m, hm, hmx⟩ := List.mem_filterMap.mp hx
  exact hall m hm x hmx

theorem height_statement {ss : List Stmt} (hrun : Run (statement e c) r ss r') :
    ∀ s ∈ ss, Height.stmt s ≤ h := by
  obtain ⟨s, hs, _⟩ := run_wholeStatement.mp (run_statement.mp hrun)
  refine forall_recovering (fun r out r' hrun => ?_) hs
  rw [run_general] at hrun
  split at hrun
  · exact height_plain he hpos hrun
  split at hrun
  · obtain ⟨f, hf, rfl⟩ := hrun
    obtain ⟨x, hx, rfl⟩ := run_function.mp hf
    exact List.forall_mem_singleton.mpr (height_routine he hpos hx)
  split at hrun
  · obtain ⟨d, hd, rfl⟩ := hrun
    obtain ⟨n, s, parent, s₁, ms, s₂, _, _, hms, _, _, rfl⟩ := run_classDefinition.mp hd
    exact List.forall_mem_singleton.mpr
      (Height.routines_le_iff.mpr (height_members he hpos hms))
  · exact height_plain he hpos hrun

/-! ### Operands and chains -/

theorem height_arguments {close : Punctuation} {xs : List Expr}
    (hrun : Yields (arguments e c close) r xs r') : Height.expressions xs ≤ h :=
  Height.expressions_le_iff.mpr
    (forall_listUpTo (fun _ _ _ hx => height_expressionOrMissing he hpos (yields_lift.mp hx)) hrun)

theorem height_body {closers : List Keyword} {b : Block} (hrun : Run (body e c closers) r b r') :
    Height.block b ≤ h :=
  height_block (fun _ _ _ _ => height_statement he hpos) hrun

theorem height_guarded {t : Token} {closers : List Keyword} {g : Guarded}
    (hrun : Run (guarded e c t closers) r g r') : Height.guarded g ≤ h := by
  obtain ⟨x, s, b, hx, hb, rfl⟩ := run_guarded.mp hrun
  exact Nat.max_le.mpr ⟨height_expressionOrMissing he hpos hx, height_body he hpos hb⟩

theorem height_branch {x : Expr} (hrun : Run (branch e c) r x r') :
    Height.expression x ≤ h + 1 := by
  obtain ⟨g, s, gs, s₁, b, s₂, hg, hgs, hb, closed, _, rfl⟩ := run_branch.mp hrun
  have hothers : Height.branches gs ≤ h := by
    refine Height.branches_le_iff.mpr (forall_repeated (fun r gs r' hg => ?_) hgs)
    obtain ⟨x, hx, rfl⟩ := run_elseIf.mp hg
    simpa using height_guarded he hpos hx
  have halternative : Height.blockIfAny b ≤ h := by
    rw [run_alternative] at hb
    split at hb
    · obtain ⟨b, hb, rfl⟩ := hb
      exact height_body he hpos hb
    · obtain ⟨rfl, _⟩ := hb
      exact Nat.zero_le _
  have hfirst := height_guarded he hpos hg
  show max _ (max _ _) + 1 ≤ h + 1
  omega

theorem height_forLoop {x : Expr} (hrun : Run (forLoop e c) r x r') :
    Height.expression x ≤ h + 1 := by
  obtain ⟨n, s, s₁, a, s₂, s₃, b, s₄, step, s₅, bl, s₆, closed, s₇, _, _, ha, _, hb, hst, hbl,
    _, _, rfl⟩ := run_forLoop.mp hrun
  have hstep : Height.ifAny step ≤ h := by
    rw [run_stepClause] at hst
    split at hst
    · obtain ⟨y, hy, rfl⟩ := hst
      exact height_expressionOrMissing he hpos hy
    · obtain ⟨rfl, _⟩ := hst
      exact Nat.zero_le _
  have hstart := height_expressionOrMissing he hpos ha
  have hstop := height_expressionOrMissing he hpos hb
  have hbody := height_body he hpos hbl
  show max _ (max _ (max _ _)) + 1 ≤ h + 1
  omega

theorem height_operand {x : Expr} (hrun : Yields (operand e c) r x r') :
    Height.expression x ≤ h + 1 := by
  obtain ⟨s, _, hx⟩ := yields_operand.mp hrun
  cases s with
  | name | date | boolean | nil =>
      simp only [begun, yields_bind, yields_lift, run_advance, yields_pure] at hx
      obtain ⟨_, _, _, rfl, _⟩ := hx
      exact Nat.le_add_left 1 h
  | integer =>
      obtain ⟨_, rfl, _⟩ := yields_integer.mp hx
      exact Nat.le_add_left 1 h
  | float =>
      obtain ⟨_, _, rfl, _⟩ := yields_float.mp hx
      exact Nat.le_add_left 1 h
  | string =>
      obtain ⟨rfl, _⟩ := run_string.mp (yields_lift.mp hx)
      exact Nat.le_add_left 1 h
  | unary op =>
      obtain ⟨y, hy, rfl⟩ := run_unary.mp (yields_lift.mp hx)
      exact Nat.succ_le_succ (height_expressionOrMissing he hpos hy)
  | group =>
      obtain ⟨s, hx, _⟩ := yields_group.mp hx
      exact Nat.le_succ_of_le (he hx)
  | array =>
      obtain ⟨xs, hxs, rfl⟩ := yields_array.mp hx
      exact Nat.succ_le_succ (height_arguments he hpos hxs)
  | ownMember =>
      obtain ⟨n, _, rfl⟩ := yields_ownMember.mp hx
      exact Nat.succ_le_succ hpos
  | branch => exact height_branch he hpos (yields_lift.mp hx)
  | whileLoop =>
      obtain ⟨s, g, s₁, _, hg, closed, _, rfl⟩ := run_whileLoop.mp (yields_lift.mp hx)
      exact Nat.succ_le_succ (height_guarded he hpos hg)
  | forLoop => exact height_forLoop he hpos (yields_lift.mp hx)

/-- A link adds one to what is left of it, if its own operands are no higher. -/
theorem height_attach {k : Nat} {left : Expr} (hleft : Height.expression left ≤ k) (hk : h ≤ k)
    {s : Step} {out : Expr × Option Token} (hrun : Yields (attach e c left s) r out r') :
    Height.expression out.1 ≤ k + 1 := by
  have hsubscript : ∀ {bracket r}, Run (subscript e c bracket left) r out r' →
      Height.expression out.1 ≤ k + 1 := by
    intro bracket r hrun
    obtain ⟨i, hi, rfl⟩ := run_subscript.mp hrun
    have hindex := height_expressionOrMissing he hpos hi
    show max _ _ + 1 ≤ k + 1
    omega
  obtain l | bracket := s
  · cases l with
    | binary op =>
        obtain ⟨y, hy, rfl⟩ := yields_attach_binary.mp hrun
        have hright := height_expressionOrMissing he hpos hy
        show max _ _ + 1 ≤ k + 1
        omega
    | assign =>
        obtain ⟨y, hy, rfl⟩ := yields_attach_assign.mp hrun
        have hvalue := height_expressionOrMissing he hpos hy
        show max _ _ + 1 ≤ k + 1
        omega
    | call =>
        obtain ⟨xs, hxs, rfl⟩ := yields_attach_call.mp hrun
        have harguments := height_arguments he hpos hxs
        show max _ _ + 1 ≤ k + 1
        omega
    | index => exact hsubscript (yields_attach_index.mp hrun)
    | member =>
        obtain ⟨n, _, rfl⟩ := yields_attach_member.mp hrun
        exact Nat.succ_le_succ hleft
  · exact hsubscript (yields_attach_subscript.mp hrun)

end Statements

/-- The greatest height of an expression read with a depth of `n`: the first operand
may be as high as one read with less depth, and each link of the chain adds one. -/
def heightBound : Nat → Nat
  | 0 => 1
  | n + 1 => heightBound n + n + 1

theorem heightBound_mono {m n : Nat} (hmn : m ≤ n) : heightBound m ≤ heightBound n := by
  induction hmn with
  | refl => exact Nat.le_refl _
  | step _ ih => exact Nat.le_trans ih (by simp only [heightBound]; omega)

theorem heightBound_pos (n : Nat) : 0 < heightBound n := heightBound_mono (Nat.zero_le n)

theorem height_chain {n p k : Nat} (he : ∀ m < n, (expression m).Within (heightBound m))
    (hk : heightBound n ≤ k) {bracket : Option Token} {left x : Expr}
    (hleft : Height.expression left ≤ k) (hrun : Yields (chain n c p bracket left) r x r') :
    Height.expression x ≤ k + n := by
  induction n generalizing k bracket left r with
  | zero =>
      rcases yields_chain.mp hrun with ⟨_, rfl⟩ | ⟨_, _, _, _, _, _, _, hn, _⟩
      · exact hleft
      · simp at hn
  | succ n ih =>
      rcases yields_chain.mp hrun with ⟨_, rfl⟩ | ⟨step, s, m, y, b, s', _, hm, hy, hx⟩
      · exact Nat.le_trans hleft (Nat.le_add_right _ _)
      · obtain rfl := Nat.succ.inj hm
        have hnk : heightBound n ≤ k := Nat.le_trans (heightBound_mono (Nat.le_succ n)) hk
        have hlink : Height.expression y ≤ k + 1 :=
          height_attach (he n (Nat.lt_succ_self n)) (heightBound_pos n) hleft hnk hy
        have := ih (fun m hm => he m (Nat.lt_succ_of_lt hm)) (Nat.le_succ_of_le hnk) hlink hx
        omega

/-- Whatever the text, an expression read with a depth of `n` is at most so high. -/
theorem within_expression (n : Nat) : (expression n).Within (heightBound n) := by
  induction n using Nat.strongRecOn with
  | ind n ih =>
      intro c p r x r' hrun
      cases n with
      | zero => exact absurd hrun yields_expression_zero
      | succ n =>
          obtain ⟨left, s, hleft, hx⟩ := yields_expression_succ.mp hrun
          have hoperand := height_operand (ih n (Nat.lt_succ_self n)) (heightBound_pos n) hleft
          have := height_chain (fun m hm => ih m (Nat.lt_succ_of_lt hm)) (Nat.le_succ _) hoperand hx
          simp only [heightBound]
          omega

theorem height_program (source file : String) :
    (Parsed.ofSource source file).program.height ≤ heightBound maxDepth := by
  obtain ⟨r, hreads, _⟩ := exists_reads (TokenStream.closed_ofText file source)
  have hall : ∀ {r ss r'}, Repeats (!·.atEnd) (statement (expression maxDepth) .file) r ss r' →
      ∀ s ∈ ss, Height.stmt s ≤ heightBound maxDepth := by
    intro r ss r' hrun
    induction hrun with
    | stop _ => simp
    | round _ hs _ ih =>
        exact List.forall_mem_append.mpr
          ⟨height_statement (within_expression _) (heightBound_pos _) hs, ih⟩
  exact Height.stmts_le_iff.mpr (hall hreads.statements)

/-- A group of the full depth with three links behind it. -/
def tallSource : String :=
  "(a" ++ String.join (List.replicate 61 "+1") ++ ")" ++ String.join (List.replicate 3 "+1")

/-- The depth given along does not bound the height: behind a group the chain goes on from
the depth at which the group began. -/
theorem maxDepth_exceeded :
    (Parsed.ofSource tallSource "t.prw").faults = [] ∧
      maxDepth < (Parsed.ofSource tallSource "t.prw").program.height := by
  decide +kernel

end Grammar

end Clipper
