import Clipper.Proofs.Content.Labels
import Clipper.Proofs.Faults.Productions

/-!
The labels of every phrase of the grammar, by induction on how it is derived. A phrase takes
its tokens behind any label; only links need to know that no declared name stands right
before them, since the sign of equality is an operator there.
-/

open scoped List

namespace Clipper

namespace Grammar

open Label

/-- The two lists of nodes have the same content and declare the same names. -/
structure SameContent (ns ms : List Node) : Prop where
  content : ns.filterMap Node.content? ~ ms.filterMap Node.content?
  declared : ns.filterMap Node.declared? ~ ms.filterMap Node.declared?

variable {ns ms : List Node} {u v : Label} {s s' s'' : Spot} {t : Token} {l : Nat}
  {ts : List Token}

theorem SameContent.refl (ns : List Node) : SameContent ns ns := ⟨.refl _, .refl _⟩

theorem SameContent.append {ns' ms' : List Node} (h : SameContent ns ms)
    (h' : SameContent ns' ms') : SameContent (ns ++ ns') (ms ++ ms') where
  content := by
    rw [List.filterMap_append, List.filterMap_append]
    exact h.content.append h'.content
  declared := by
    rw [List.filterMap_append, List.filterMap_append]
    exact h.declared.append h'.declared

theorem Conserves.same (h : Conserves ns u s v s') (h' : SameContent ns ms) :
    Conserves ms u s v s' :=
  h.congr h'.content h'.declared

/-- The nodes that a phrase makes. -/
def Phrase.nodes : Phrase → List Node
  | expression _ _ x | operand _ x | links _ _ _ _ x => Nodes.expression x
  | expressions _ xs | arguments _ _ xs => Nodes.expressions xs
  | step _ x => Nodes.ifAny x
  | guarded _ _ g => Nodes.guarded g
  | branches _ gs => Nodes.branches gs
  | alternative _ b => Nodes.blockIfAny b
  | block _ b => Nodes.block b
  | statements _ ss | statement _ ss => Nodes.stmts ss
  | declarator _ d => Nodes.stmt (.variable d.1.token .localVar d.1 d.2)
  | declarators _ ds => ds.flatMap fun d => Nodes.stmt (.variable d.1.token .localVar d.1 d.2)
  | routine _ _ _ x => Nodes.routine x
  | members _ ms | member _ ms => ms.flatMap Member.nodes

/-- A phrase that does not end with a declared name. -/
@[simp] def Phrase.isValue : Phrase → Bool
  | expression _ _ _ | operand _ _ | links _ _ _ _ _ | expressions _ _ | arguments _ _ _ => true
  | _ => false

/-- Wherever the phrase is read its tokens bear labels. Links add nodes to what they take up. -/
def Phrase.Conserved : Phrase → Spot → Spot → Prop
  | .links _ _ _ left x, s, s' => ∀ u, Before u s → u.role ≠ .declared →
      ∃ v ns, v.role ≠ .declared ∧ Conserves ns u s v s' ∧
        SameContent (Nodes.expression left ++ ns) (Nodes.expression x)
  | .routine _ _ close x, s, s' => (TokenKind.keyword close).isContent = false →
      (TokenKind.keyword close != .keyword .kwNext) = true → ∀ u, Before u s →
      ∃ v, Conserves (Nodes.routine x) u s v s'
  | p, s, s' => ∀ u, Before u s →
      ∃ v, (p.isValue = true → v.role ≠ .declared) ∧ Conserves p.nodes u s v s'

theorem Names.conserved {xs : List Name} (h : Names xs s s') (hu : Before u s) :
    ∃ v, Conserves (xs.map .name) u s v s' := by
  induction h generalizing u with
  | last hn _ => exact ⟨_, .name hu hn⟩
  | more hn hcomma _ ih =>
      obtain ⟨v, hrest⟩ := ih (.punctuation hcomma)
      exact ⟨v, (Conserves.name hu hn).trans ((Conserves.punctuation hcomma).trans hrest)⟩

theorem Parameters.conserved {xs : List Name} (h : Parameters xs s s') (hu : Before u s) :
    ∃ v, Conserves (xs.map .name) u s v s' := by
  cases h with
  | absent _ => exact ⟨u, .refl hu⟩
  | empty ho _ hc => exact ⟨_, (Conserves.punctuation ho).trans (.punctuation hc)⟩
  | names ho _ hnames hc =>
      obtain ⟨v, h⟩ := hnames.conserved (.punctuation ho)
      exact ⟨_, by simpa using (Conserves.punctuation ho).trans (h.trans (.punctuation hc))⟩

theorem Closing.conserved {k : Keyword} {closed : Option Token} (h : Closing k closed s s')
    (hk : (TokenKind.keyword k).isContent = false)
    (hnext : (TokenKind.keyword k != .keyword .kwNext) = true) (hu : Before u s) :
    ∃ v, Conserves [] u s v s' := by
  cases h with
  | absent _ => exact ⟨u, .refl hu⟩
  | word ht => exact ⟨_, .keyword ht hk hnext⟩

theorem Parent.conserved {parent : Option Name} (h : Parent parent s s') (hu : Before u s) :
    ∃ v, Conserves (parent.toList.map .name) u s v s' := by
  cases h with
  | absent _ => exact ⟨u, .refl hu⟩
  | named hf ht => exact ⟨_, (Conserves.keyword hf rfl rfl).trans (.name (.keyword hf rfl) ht)⟩

theorem LoopWord.conserved (h : LoopWord t s s') :
    ∃ v, Conserves [] u s v s' := by
  cases h with
  | «while» ht => exact ⟨_, .keyword ht rfl rfl⟩
  | doWhile ht hw => exact ⟨_, (Conserves.keyword ht rfl rfl).trans (.keyword hw rfl rfl)⟩

theorem conserves_links {c : Context} {p : Nat} {b : Option Token} {left y x : Expr}
    (hnodes : Nodes.expression y = Nodes.expression left ++ ns) (h : Conserves ns u s v s')
    (hv : v.role ≠ .declared) (hrest : (Phrase.links c p b y x).Conserved s' s'') :
    ∃ w ms, w.role ≠ .declared ∧ Conserves ms u s w s'' ∧
      SameContent (Nodes.expression left ++ ms) (Nodes.expression x) := by
  obtain ⟨w, ms, hw, hms, hsame⟩ := hrest v h.before hv
  refine ⟨w, ns ++ ms, hw, h.trans hms, ?_⟩
  rwa [← List.append_assoc, ← hnodes]

/-- A list of variables makes one statement for each of them. -/
theorem sameContent_variables (t : Token) (st : Storage) (ds : List (Name × Option Expr)) :
    SameContent (ds.flatMap fun d => Nodes.stmt (.variable d.1.token .localVar d.1 d.2))
      (Nodes.stmts (ds.map fun d => .variable t st d.1 d.2)) := by
  induction ds with
  | nil => exact ⟨.refl _, .refl _⟩
  | cons d ds ih =>
      rw [List.flatMap_cons, List.map_cons, Nodes.stmts]
      have hd : SameContent (Nodes.stmt (.variable d.1.token .localVar d.1 d.2))
          (Nodes.stmt (.variable t st d.1 d.2)) :=
        .append (.refl (.name d.1 :: Nodes.ifAny d.2)) ⟨.refl _, .refl _⟩
      exact hd.append ih

/-- The tree lists the attributes of a class before its methods. -/
theorem perm_members (ms : List Member) :
    ms.flatMap Member.nodes ~ (ms.filterMap Member.attribute?).map (fun a => .name a.name) ++
      Nodes.routines (ms.filterMap Member.method?) := by
  induction ms with
  | nil => exact .refl _
  | cons m ms ih =>
      rw [List.flatMap_cons]
      cases m with
      | data a => exact ih.cons _
      | method m =>
          refine (ih.append_left _).trans ?_
          exact (List.perm_append_comm_assoc _ _ _)

theorem Conserves.literal {n : Node} {k : TokenKind} (hu : Before u ⟨l, t :: ts⟩) (ht : t.kind = k)
    (hcontent : n.content? = some t) (hk : k.isContent = true)
    (hsign : (k != .operator .assign && k != .operator .equal) = true)
    (hdeclared : n.declared? = none) :
    Conserves [n] u ⟨l, t :: ts⟩ ⟨t, .content⟩ ⟨t.endLine, ts⟩ := by
  refine leaf hu (ht ▸ hk) (.inr ?_) (fun _ => hcontent) hdeclared
  simpa [Token.isSign, Token.isOperator, ht] using hsign

/-- The kind of the token that a link begins with. -/
def Link.kind : Link → TokenKind
  | binary op => .operator op.operator
  | assign => .operator .assign
  | call => .punctuation .openParen
  | index => .punctuation .openBracket
  | member => .punctuation .colon

theorem kind_of_link? {c : Context} {p : Nat} {k : Link}
    (h : (⟨l, t :: ts⟩ : Spot).link? c p = some k) : t.kind = k.kind := by
  have hkind := ofKind?_of_link? h
  cases ht : t.kind with
  | operator o =>
      rw [ht] at hkind
      cases o <;> cases hkind <;> rfl
  | punctuation p =>
      rw [ht] at hkind
      cases p <;> cases hkind <;> rfl
  | _ =>
      rw [ht] at hkind
      cases hkind

/-- Calls, subscripts and member sends begin with a sign. -/
theorem isPunctuation_of_link? {c : Context} {p : Nat} {k : Link} {sign : Punctuation}
    (h : (⟨l, t :: ts⟩ : Spot).link? c p = some k) (hk : k.kind = .punctuation sign) :
    t.isPunctuation sign = true := by
  simp [Token.isPunctuation, kind_of_link? h, hk]

theorem keyword_of_storage (h : isStorage t.kind = true) :
    ∃ k, t.isKeyword k = true ∧ (TokenKind.keyword k).isContent = false ∧ k ≠ .kwNext := by
  simp only [isStorage, Bool.or_eq_true, beq_iff_eq] at h
  rcases h with (h | h) | h <;> exact ⟨_, by simp [Token.isKeyword, h]; rfl, rfl, by simp⟩

theorem UnaryOp.not_sign (op : UnaryOp) :
    (TokenKind.operator op.operator != .operator .assign &&
      TokenKind.operator op.operator != .operator .equal) = true := by
  cases op <;> rfl

/-- What every phrase of the grammar conserves. -/
theorem Derives.conserved {lax : Bool} {m : Nat} {p : Phrase} (h : Derives lax m p s s') :
    p.Conserved s s' := by
  induction h with
  | expression _ _ ihoperand ihlinks =>
      intro u hu
      obtain ⟨v, hv, hoperand⟩ := ihoperand u hu
      obtain ⟨w, ns, hw, hlinks, hsame⟩ := ihlinks v hoperand.before (hv rfl)
      exact ⟨w, fun _ => hw, (hoperand.trans hlinks).same hsame⟩
  | name ht =>
      intro u hu
      have hname := ht.elim (Conserves.name hu) (Conserves.self hu)
      exact ⟨⟨_, .content⟩, by simp, hname.concat rfl rfl⟩
  | integer ht _ => exact fun u hu => ⟨⟨_, .content⟩, by simp, .literal hu ht rfl rfl rfl rfl⟩
  | float ht _ => exact fun u hu => ⟨⟨_, .content⟩, by simp, .literal hu ht rfl rfl rfl rfl⟩
  | string ht => exact fun u hu => ⟨⟨_, .content⟩, by simp, .literal hu ht rfl rfl rfl rfl⟩
  | date ht => exact fun u hu => ⟨⟨_, .content⟩, by simp, .literal hu ht rfl rfl rfl rfl⟩
  | boolean ht =>
      exact fun u hu => ⟨⟨_, .content⟩, by simp,
        .literal hu ht rfl (by split <;> rfl) (by split <;> rfl) rfl⟩
  | nil ht => exact fun u hu => ⟨⟨_, .content⟩, by simp, .literal hu ht rfl rfl rfl rfl⟩
  | unary ht _ ih =>
      intro u hu
      obtain ⟨v, hv, h⟩ := ih ⟨_, .content⟩ (.of_kind ht rfl)
      refine ⟨v, fun _ => hv rfl, Conserves.perm (.trans ?_ h) List.perm_append_comm⟩
      exact .literal hu ht rfl rfl (UnaryOp.not_sign _) rfl
  | group ht _ hclose ih =>
      intro u hu
      obtain ⟨v, _, h⟩ := ih ⟨_, .mark⟩ (.punctuation ht)
      have hclosed := h.trans (.punctuation hclose)
      rw [List.append_nil] at hclosed
      exact ⟨⟨_, .mark⟩, by simp, (Conserves.punctuation ht).trans hclosed⟩
  | array ht _ ih =>
      intro u hu
      obtain ⟨v, hv, h⟩ := ih ⟨_, .mark⟩ (.punctuation ht)
      exact ⟨v, fun _ => hv rfl, ((Conserves.punctuation ht).trans h).concat rfl rfl⟩
  | ownMember ht hn =>
      intro u hu
      refine ⟨⟨_, .content⟩, by simp,
        Conserves.congr (.trans (.punctuation ht) (.name (.punctuation ht) hn)) ?_ ?_⟩
      · simp [Phrase.nodes, Nodes.expression, List.filterMap_cons, Node.content?, Token.implied,
          Span.isEmpty, Span.size]
      · exact .refl _
  | branch ht _ _ _ hk ihfirst ihothers ihother =>
      intro u hu
      obtain ⟨v, _, hfirst⟩ := ihfirst ⟨_, .mark⟩ (.keyword ht rfl)
      obtain ⟨w, _, hothers⟩ := ihothers v hfirst.before
      obtain ⟨z, _, hother⟩ := ihother w hothers.before
      have hparts := ((hfirst.trans hothers).trans hother).trans (.keyword hk rfl rfl)
      rw [List.append_nil] at hparts
      exact ⟨⟨_, .mark⟩, by simp, Conserves.concat (.trans (.keyword ht rfl rfl) hparts) rfl rfl⟩
  | whileLoop hword _ hk ih =>
      intro u hu
      obtain ⟨v, hword⟩ := hword.conserved (u := u)
      obtain ⟨w, _, hg⟩ := ih v hword.before
      have hclosed := (hword.trans hg).trans (.keyword hk rfl rfl)
      rw [List.append_nil] at hclosed
      exact ⟨⟨_, .mark⟩, by simp, hclosed.concat rfl rfl⟩
  | forLoop ht hn hsign _ hto _ _ _ hk hagain iha ihb ihstep ihbl =>
      intro u hu
      obtain ⟨v, _, ha⟩ := iha ⟨_, .sign⟩ (.sign hsign)
      obtain ⟨w, _, hb⟩ := ihb ⟨_, .mark⟩ (.keyword hto rfl)
      obtain ⟨x, _, hstep⟩ := ihstep w hb.before
      obtain ⟨y, _, hbl⟩ := ihbl x hstep.before
      obtain ⟨z, hz, hend⟩ := Conserves.next hk hagain
      have hrest :=
        (ha.trans (.keyword hto rfl rfl)).trans (((hb.trans hstep).trans hbl).trans hend)
      refine ⟨z, fun _ => hz, Conserves.congr (.trans (.keyword ht rfl rfl)
        (.trans (.signed (.keyword ht rfl) hn hsign) hrest)) ?_ ?_⟩
      · simp [Phrase.nodes, Nodes.expression, Nodes.stmt, Nodes.ifAny, List.filterMap_cons,
          Node.content?]
      · simp only [Phrase.nodes, Nodes.expression, Nodes.stmt, Nodes.ifAny, List.filterMap_append,
          List.filterMap_cons, Node.declared?, List.filterMap_nil, List.nil_append,
          List.append_nil, List.cons_append, List.append_assoc]
        refine (List.perm_append_singleton _ _).symm.trans (.of_eq ?_)
        simp only [List.append_assoc]
  | stop _ =>
      intro u hu hrole
      exact ⟨u, [], hrole, .refl hu, by simp, by simp⟩
  | binary hlink _ _ ihy ihx =>
      intro u hu hrole
      obtain ⟨v, hv, hy⟩ := ihy ⟨_, .content⟩ (.of_kind (kind_of_link? hlink) rfl)
      refine conserves_links (List.append_assoc _ _ _) (.perm (.trans ?_ hy) List.perm_append_comm)
        (hv rfl) ihx
      exact .leaf hu (kind_of_link? hlink ▸ rfl) (.inl hrole) (fun _ => rfl) rfl
  | assign hlink _ _ _ ihy ihx =>
      intro u hu hrole
      obtain ⟨v, hv, hy⟩ := ihy ⟨_, .content⟩ (.of_kind (kind_of_link? hlink) rfl)
      refine conserves_links (List.append_assoc _ _ _) (.perm (.trans ?_ hy) List.perm_append_comm)
        (hv rfl) ihx
      exact .leaf hu (kind_of_link? hlink ▸ rfl) (.inl hrole) (fun _ => rfl) rfl
  | call hlink _ _ ihxs ihx =>
      intro u hu _
      have ht := isPunctuation_of_link? hlink rfl
      obtain ⟨v, hv, hxs⟩ := ihxs ⟨_, .mark⟩ (.punctuation ht)
      exact conserves_links (List.append_assoc _ _ _)
        (.concat (.trans (.punctuation ht) hxs) rfl rfl)
        (hv rfl) ihx
  | index hlink _ _ ihi ihx =>
      intro u hu _
      have ht := isPunctuation_of_link? hlink rfl
      obtain ⟨v, hv, hi⟩ := ihi ⟨_, .mark⟩ (.punctuation ht)
      exact conserves_links (List.append_assoc _ _ _)
        (.concat (.trans (.punctuation ht) hi) rfl rfl)
        (hv rfl) ihx
  | subscript ht _ _ ihi ihx =>
      intro u hu _
      obtain ⟨v, hv, hi⟩ := ihi ⟨_, .mark⟩ (.punctuation ht)
      exact conserves_links (List.append_assoc _ _ _)
        (.concat (.trans (.punctuation ht) hi) rfl rfl)
        (hv rfl) ihx
  | closeIndex ht _ ihx =>
      intro u hu _
      obtain ⟨v, ns, hv, h, hsame⟩ := ihx ⟨_, .mark⟩ (.punctuation ht) (by simp)
      exact ⟨v, ns, hv, (Conserves.punctuation ht).trans h, hsame⟩
  | member hlink hn _ ihx =>
      intro u hu _
      have ht := isPunctuation_of_link? hlink rfl
      exact conserves_links rfl
        (.concat (.trans (.punctuation ht) (.name (.punctuation ht) hn)) rfl rfl)
        (by simp) ihx
  | lastExpression _ _ ih =>
      intro u hu
      obtain ⟨v, hv, h⟩ := ih u hu
      exact ⟨v, fun _ => hv rfl, by simpa [Phrase.nodes, Nodes.expressions] using h⟩
  | moreExpressions _ hcomma _ ih ihxs =>
      intro u hu
      obtain ⟨v, _, h⟩ := ih u hu
      obtain ⟨w, hw, hxs⟩ := ihxs ⟨_, .mark⟩ (.punctuation hcomma)
      exact ⟨w, fun _ => hw rfl, h.trans (.trans (.punctuation hcomma) hxs)⟩
  | noArguments ht => exact fun u hu => ⟨⟨_, .mark⟩, by simp, .punctuation ht⟩
  | arguments _ _ ht ih =>
      intro u hu
      obtain ⟨v, _, h⟩ := ih u hu
      have hclosed := h.trans (.punctuation ht)
      rw [List.append_nil] at hclosed
      exact ⟨⟨_, .mark⟩, by simp, hclosed⟩
  | noStep _ | noBranches _ | noAlternative _ | noStatements _ | noMembers _ =>
      exact fun u hu => ⟨u, by simp, .refl hu⟩
  | step ht _ ih =>
      intro u hu
      obtain ⟨v, _, h⟩ := ih ⟨_, .mark⟩ (.keyword ht rfl)
      exact ⟨v, by simp, (Conserves.keyword ht rfl rfl).trans h⟩
  | guarded _ _ ihx ihb =>
      intro u hu
      obtain ⟨v, _, hx⟩ := ihx u hu
      obtain ⟨w, _, hb⟩ := ihb v hx.before
      exact ⟨w, by simp, hx.trans hb⟩
  | branches ht _ _ ihg ihgs =>
      intro u hu
      obtain ⟨v, _, hg⟩ := ihg ⟨_, .mark⟩ (.keyword ht rfl)
      obtain ⟨w, _, hgs⟩ := ihgs v hg.before
      exact ⟨w, by simp, (Conserves.keyword ht rfl rfl).trans (hg.trans hgs)⟩
  | alternative ht _ ih =>
      intro u hu
      obtain ⟨v, _, h⟩ := ih ⟨_, .mark⟩ (.keyword ht rfl)
      exact ⟨v, by simp, (Conserves.keyword ht rfl rfl).trans h⟩
  | block _ ih => exact ih
  | statements _ _ _ ihs ihss =>
      intro u hu
      obtain ⟨v, _, hs⟩ := ihs u hu
      obtain ⟨w, _, hss⟩ := ihss v hs.before
      refine ⟨w, by simp, ?_⟩
      simpa [Phrase.nodes, Nodes.stmts_eq] using hs.trans hss
  | variableList ht _ _ ih =>
      intro u hu
      obtain ⟨k, hk, hmark, hnext⟩ := keyword_of_storage ht
      have hnext : (TokenKind.keyword k != .keyword .kwNext) = true := by simpa using hnext
      obtain ⟨v, _, h⟩ := ih ⟨_, .mark⟩ (.keyword hk hnext)
      exact ⟨v, by simp, Conserves.same (.trans (.keyword hk hmark hnext) h)
        (sameContent_variables _ _ _)⟩
  | returnNothing ht _ =>
      exact fun u hu => ⟨⟨_, .mark⟩, by simp, Conserves.concat (.keyword ht rfl rfl) rfl rfl⟩
  | returnValue ht _ _ _ ih =>
      intro u hu
      obtain ⟨v, _, h⟩ := ih ⟨_, .mark⟩ (.keyword ht rfl)
      refine ⟨v, by simp, ?_⟩
      rw [Phrase.nodes, Nodes.stmts, Nodes.stmts, List.append_nil]
      exact .concat (.trans (.keyword ht rfl rfl) h) rfl rfl
  | value _ _ ih =>
      intro u hu
      obtain ⟨v, _, h⟩ := ih u hu
      refine ⟨v, by simp, ?_⟩
      rw [Phrase.nodes, Nodes.stmts, Nodes.stmts, List.append_nil]
      exact h.concat rfl rfl
  | function _ ht _ ih =>
      intro u hu
      obtain ⟨v, h⟩ := ih rfl rfl ⟨_, .mark⟩ (.keyword ht rfl)
      refine ⟨v, by simp, ?_⟩
      rw [Phrase.nodes, Nodes.stmts, Nodes.stmts, List.append_nil]
      exact .concat (.trans (.keyword ht rfl rfl) h) rfl rfl
  | staticFunction _ ht hf _ ih =>
      intro u hu
      obtain ⟨v, h⟩ := ih rfl rfl ⟨_, .mark⟩ (.keyword hf rfl)
      refine ⟨v, by simp, ?_⟩
      rw [Phrase.nodes, Nodes.stmts, Nodes.stmts, List.append_nil]
      exact .concat (.trans (.keyword ht rfl rfl) (.trans (.keyword hf rfl rfl) h)) rfl rfl
  | classDef _ ht hn hparent _ hk ih =>
      intro u hu
      obtain ⟨v, hp⟩ := hparent.conserved (.of_kind hn rfl)
      obtain ⟨w, _, hms⟩ := ih v hp.before
      have hmembers := (hms.perm (perm_members _)).trans (.keyword hk rfl rfl)
      rw [List.append_nil] at hmembers
      refine ⟨⟨_, .mark⟩, by simp, Conserves.congr
        (.trans (.keyword ht rfl rfl) (.trans (.name (.keyword ht rfl) hn) (hp.trans hmembers)))
        ?_ ?_⟩
      · simp [Phrase.nodes, Nodes.stmts, Nodes.stmt, Nodes.classDefinition, List.filterMap_cons]
      · simp [Phrase.nodes, Nodes.stmts, Nodes.stmt, Nodes.classDefinition, List.filterMap_cons,
          Node.declared?]
  | declared hn _ => exact fun u hu => ⟨⟨_, .declared⟩, by simp, .declared hu hn⟩
  | initialized hn hsign _ ih =>
      intro u hu
      have hsign := Token.isSign_of_assign hsign
      obtain ⟨v, _, h⟩ := ih ⟨_, .sign⟩ (.sign hsign)
      refine ⟨v, by simp, Conserves.congr (.trans (.signed hu hn hsign) h) ?_ ?_⟩
      · simp [Phrase.nodes, Nodes.stmt, Nodes.ifAny, List.filterMap_cons]
      · simp only [Phrase.nodes, Nodes.stmt, Nodes.ifAny, List.filterMap_append,
          List.filterMap_cons, Node.declared?, List.filterMap_nil, List.nil_append,
          List.cons_append]
        exact (List.perm_append_singleton _ _).symm
  | lastDeclarator _ _ ih =>
      intro u hu
      obtain ⟨v, _, h⟩ := ih u hu
      exact ⟨v, by simp, by simpa [Phrase.nodes] using h⟩
  | moreDeclarators _ hcomma _ ih ihds =>
      intro u hu
      obtain ⟨v, _, h⟩ := ih u hu
      obtain ⟨w, _, hds⟩ := ihds ⟨_, .mark⟩ (.punctuation hcomma)
      exact ⟨w, by simp, h.trans (.trans (.punctuation hcomma) hds)⟩
  | routine hn hps _ hclose ih =>
      intro hmark hnext u hu
      obtain ⟨v, hps⟩ := hps.conserved (.of_kind hn rfl)
      obtain ⟨w, _, hb⟩ := ih v hps.before
      obtain ⟨x, hc⟩ := hclose.conserved hmark hnext hb.before
      have hparts := (hps.trans hb).trans hc
      rw [List.append_nil] at hparts
      exact ⟨x, (Conserves.name hu hn).trans hparts⟩
  | members _ _ ihm ihms =>
      intro u hu
      obtain ⟨v, _, hm⟩ := ihm u hu
      obtain ⟨w, _, hms⟩ := ihms v hm.before
      refine ⟨w, by simp, ?_⟩
      rw [Phrase.nodes, List.flatMap_append]
      exact hm.trans hms
  | attributes ht hns _ =>
      intro u hu
      obtain ⟨v, h⟩ := hns.conserved (.keyword ht rfl)
      refine ⟨v, by simp, ?_⟩
      rw [Phrase.nodes, List.flatMap_map]
      exact (List.map_eq_flatMap ▸ Conserves.trans (.keyword ht rfl rfl) h)
  | method ht _ ih =>
      intro u hu
      obtain ⟨v, h⟩ := ih rfl rfl ⟨_, .mark⟩ (.keyword ht rfl)
      refine ⟨v, by simp, ?_⟩
      rw [Phrase.nodes, List.flatMap_singleton]
      exact (Conserves.keyword ht rfl rfl).trans h

end Grammar

end Clipper
