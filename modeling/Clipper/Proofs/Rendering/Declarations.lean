import Clipper.Proofs.Rendering.Blocks

/-!
Statements and declarations in canonical form, read again. In canonical form every list of
parameters and every closing word is written, and the attributes of a class stand before its
methods.
-/

namespace Clipper

open Lexeme Layout Canonical

namespace Grammar

variable {c : Context} {l l' : Nat} {t k : Token} {ts u : List Token} {is js : List Element}
  {ps : List Piece} {x : Expr} {ss : List Stmt} {n : Name} {ns : List Name} {style : Style}
  {r : Bool}

/-! ### Statements -/

theorem Loose.value (hx : Loose r (Headers.expression false · x) is x) (hstarts : Starts r ps is) :
    Line r is (.expression t x) := by
  intro ts l l' hts
  obtain ⟨y, hy, hread⟩ := hx hts
  obtain ⟨t', us, rfl, -⟩ := hstarts.exists_first hts
  refine ⟨.expression t' y, .value hy, fun c l₀ k u hc hline hk => ?_⟩
  obtain ⟨m, hm⟩ := hread c l₀ (k :: u) (hc.undelimited hline) (hk.ends hline)
  exact ⟨m, .value hm hk.stops⟩

theorem line_return : Line r [.word (reserved style .kwReturn)] (.ret t none) := by
  intro ts l l' hts
  obtain ⟨o, rfl, ho, -, rfl⟩ := exists_single hts
  refine ⟨.ret o none, .ret .noExpression, fun c l₀ k u _ _ hk => ⟨0, ?_⟩⟩
  exact .returnNothing (isKeyword_of_reserved ho) hk.stops

theorem Loose.returned (hx : Loose r (Headers.expression false · x) is x)
    (hstarts : Starts r ps is) :
    Line r (.word (reserved style .kwReturn) :: is) (.ret t (some x)) := by
  intro ts l l' hts
  obtain ⟨o, us, rfl, ho, -, hus⟩ := exists_first hts
  obtain ⟨y, hy, hread⟩ := hx hus
  refine ⟨.ret o (some y), .ret (.someExpression hy), fun c l₀ k u hc hline hk => ?_⟩
  obtain ⟨m, hm⟩ := hread c o.endLine (k :: u) (hc.undelimited hline) (hk.ends hline)
  obtain ⟨t', us', rfl, ht, hsame, -⟩ := hstarts.exists_first hus
  have hgoes : (⟨o.endLine, t' :: us' ++ k :: u⟩ : Spot).stops c = false := by
    simp [Spot.stops, Token.isEnd_of_leads ht, Token.isAny_of_leads hc.closers ht, hsame]
  exact ⟨m, .returnValue (isKeyword_of_reserved ho) hgoes hm hk.stops⟩

theorem storage_of_reserved {st : Storage} (h : t.word = reserved style (storage st)) :
    isStorage t.kind = true ∧ storageOf t = st := by
  have hk : t.kind = .keyword (storage st) := kind_of_word h
  cases st <;> simp_all [isStorage, storageOf, storage, Token.isKeyword]

theorem line_declared {st : Storage} :
    Line r [.word (reserved style (storage st)), .word (.identifier, n.text)]
      (.variable t st n none) := by
  intro ts l l' hts
  obtain ⟨o, us, rfl, ho, -, hus⟩ := exists_first hts
  obtain ⟨i, rfl, hi, -, rfl⟩ := exists_single hus
  obtain ⟨hstorage, rfl⟩ := storage_of_reserved ho
  refine ⟨.variable o (storageOf o) ⟨i⟩ none,
    .variable (literal_of_word hi).symm .noExpression, fun c l₀ k u _ _ hk => ⟨0, ?_⟩⟩
  have hdeclared : Derives false 0 (.declarator c (⟨i⟩, none)) ⟨o.endLine, i :: k :: u⟩
      ⟨i.endLine, k :: u⟩ := .declared (kind_of_word hi) hk.not_assign
  exact .variableList hstorage (.lastDeclarator hdeclared hk.not_comma) hk.stops

theorem Loose.initialized {st : Storage} (hx : Loose r (Headers.expression false · x) is x) :
    Line r (.word (reserved style (storage st)) :: .word (.identifier, n.text) ::
        .word (operated style .assign) :: is) (.variable t st n (some x)) := by
  intro ts l l' hts
  obtain ⟨o, _, rfl, ho, -, hbehind⟩ := exists_first hts
  obtain ⟨i, _, rfl, hi, -, hbehind⟩ := exists_first hbehind
  obtain ⟨a, us, rfl, ha, -, hus⟩ := exists_first hbehind
  obtain ⟨y, hy, hread⟩ := hx hus
  obtain ⟨hstorage, rfl⟩ := storage_of_reserved ho
  refine ⟨.variable o (storageOf o) ⟨i⟩ (some y),
    .variable (literal_of_word hi).symm (.someExpression hy), fun c l₀ k u hc hline hk => ?_⟩
  obtain ⟨m, hm⟩ := hread c a.endLine (k :: u) (hc.undelimited hline) (hk.ends hline)
  have hsign : a.isOperator .assign = true := by
    simp [Token.isOperator, kind_of_word ha, operated]
  have hinitialized : Derives false m (.declarator c (⟨i⟩, some y))
      ⟨o.endLine, i :: a :: (us ++ k :: u)⟩ ⟨l', k :: u⟩ :=
    .initialized (kind_of_word hi) hsign hm
  exact ⟨m, .variableList hstorage (.lastDeclarator hinitialized hk.not_comma) hk.stops⟩

/-! ### Parameters -/

/-- The elements are read as the names. -/
def Naming (is : List Element) (ns : List Name) : Prop :=
  ∀ ⦃ts l l'⦄, Printed l is ts l' → ∃ ms, ns.map Name.text = ms.map Name.text ∧
    ∀ (l₀ : Nat) (k : Token) (u : List Token), k.isPunctuation .comma = false →
      Names ms ⟨l₀, ts ++ k :: u⟩ ⟨l', k :: u⟩

theorem naming_last : Naming [.word (.identifier, n.text)] [n] := by
  intro ts l l' hts
  obtain ⟨i, rfl, hi, -, rfl⟩ := exists_single hts
  refine ⟨[⟨i⟩], by simp [Name.text, literal_of_word hi], fun l₀ k u hk => ?_⟩
  exact .last (kind_of_word hi) (by simpa [Spot.next] using hk)

theorem Naming.cons (hns : Naming is ns) :
    Naming (.word (.identifier, n.text) :: .word (marked .comma) :: is) (n :: ns) := by
  intro ts l l' hts
  obtain ⟨i, _, rfl, hi, -, hbehind⟩ := exists_first hts
  obtain ⟨o, us, rfl, ho, -, hus⟩ := exists_first hbehind
  obtain ⟨ms, hms, hread⟩ := hns hus
  refine ⟨⟨i⟩ :: ms, by simp [Name.text, literal_of_word hi, hms], fun l₀ k u hk => ?_⟩
  exact .more (kind_of_word hi) (isPunctuation_of_marked ho) (hread o.endLine k u hk)

/-- The elements are read as the parameters of a routine. -/
def Passing (is : List Element) (ns : List Name) : Prop :=
  ∀ ⦃ts l l'⦄, Printed l is ts l' → ∃ ms, ns.map Name.text = ms.map Name.text ∧
    ∀ u, Parameters ms ⟨l, ts ++ u⟩ ⟨l', u⟩

theorem passing_nil :
    Passing [.word (marked .openParen), .word (marked .closeParen)] [] := by
  intro ts l l' hts
  obtain ⟨o, us, rfl, ho, hline, hus⟩ := exists_first hts
  obtain ⟨k, rfl, hk, -, rfl⟩ := exists_single hus
  exact ⟨[], rfl, fun u => .empty (isPunctuation_of_marked ho) hline (isPunctuation_of_marked hk)⟩

theorem Naming.passing (h : Naming is ns) :
    Passing (.word (marked .openParen) :: is ++ [.word (marked .closeParen)]) ns := by
  intro ts l l' hts
  obtain ⟨_, k, rfl, hk, hbefore, rfl⟩ := exists_last hts
  obtain ⟨o, us, rfl, ho, hline, hus⟩ := exists_first hbefore
  obtain ⟨ms, hms, hread⟩ := h hus
  refine ⟨ms, hms, fun u => ?_⟩
  have hcomma : k.isPunctuation .comma = false := by
    simp [Token.isPunctuation, kind_of_word hk, marked]
  rw [List.append_assoc]
  exact .names (isPunctuation_of_marked ho) hline (hread o.endLine k u hcomma)
    (isPunctuation_of_marked hk)

/-! ### Routines -/

/-- The elements are read as a routine, behind the word that introduces it. -/
def Routined (closers : List Keyword) (close : Keyword) (is : List Element) (x : Routine) : Prop :=
  ∀ ⦃ts l l'⦄, Printed l is ts l' → ∃ n ns b k,
    (∀ t, Part.Same (.routine x) (.routine ⟨t, n, ns, b, k⟩)) ∧
    ∀ (c : Context) (l₀ : Nat) (u : List Token) (t : Token),
      c.insideRoutine.Suits true (fun _ => Headers.routine x) →
      ∃ m, Derives false m (.routine c closers close ⟨t, n, ns, b, k⟩) ⟨l₀, ts ++ u⟩ ⟨l', u⟩

theorem Paragraph.routined {closers : List Keyword} {close : Keyword} {t' : Token}
    {closing : Option Token} (hss : Paragraph true js ss) (hns : Passing is ns)
    (hclosers : ∀ k ∈ closers, k.leads true = false) (hclose : close ∈ closers) :
    Routined closers close
      (.word (.identifier, n.text) :: is ++ .lineEnd :: js ++ [.word (reserved style close)])
      ⟨t, n, ns, ⟨t', ss⟩, closing⟩ := by
  intro ts l l' hts
  obtain ⟨_, k, rfl, hk, hbefore, rfl⟩ := exists_last hts
  obtain ⟨_, vs, l₁, rfl, hbefore, hbehind⟩ := hbefore.split
  obtain ⟨i, us, rfl, hi, -, hus⟩ := exists_first hbefore
  cases hbehind with
  | lineEnd _ hvs =>
      obtain ⟨ms, hms, hparameters⟩ := hns hus
      obtain ⟨ss', hss', hread⟩ := hss.reads hvs
      refine ⟨⟨i⟩, ms, ⟨vs.headD k, ss'⟩, some k,
        fun t => .routine (literal_of_word hi).symm hms (.block hss'), fun c l₀ u t hc => ?_⟩
      have hend := isKeyword_of_reserved hk
      obtain ⟨m, l₂, hm⟩ := hread (c.insideRoutine.enter closers) l₁ k u (hc.enter hclosers) rfl
        (.inr (isAny_of_isKeyword hend (List.mem_append_left _ hclose)))
      refine ⟨m, ?_⟩
      simp only [List.append_assoc, List.cons_append, List.nil_append]
      exact .routine (kind_of_word hi) (hparameters _) (hm.block_headD vs k) (.word hend)

theorem Routined.function {x : Routine} (h : Routined functionClosers .kwEndFunction is x) :
    Line false (.word (reserved style .kwFunction) :: is) (.function false x) := by
  intro ts l l' hts
  obtain ⟨o, us, rfl, ho, -, hus⟩ := exists_first hts
  obtain ⟨n, ns, b, k', hsame, hread⟩ := h hus
  refine ⟨.function false ⟨o, n, ns, b, k'⟩, .function (hsame o), fun c l₀ k u hc _ _ => ?_⟩
  obtain ⟨m, hm⟩ := hread c o.endLine (k :: u) o hc.insideRoutine
  exact ⟨m, .function hc.inRoutine (isKeyword_of_reserved ho) hm⟩

theorem Routined.staticFunction {x : Routine} (h : Routined functionClosers .kwEndFunction is x) :
    Line false (.word (reserved style .kwStatic) :: .word (reserved style .kwFunction) :: is)
      (.function true x) := by
  intro ts l l' hts
  obtain ⟨o, _, rfl, ho, -, hbehind⟩ := exists_first hts
  obtain ⟨f, us, rfl, hf, -, hus⟩ := exists_first hbehind
  obtain ⟨n, ns, b, k', hsame, hread⟩ := h hus
  refine ⟨.function true ⟨o, n, ns, b, k'⟩, .function (hsame o), fun c l₀ k u hc _ _ => ?_⟩
  obtain ⟨m, hm⟩ := hread c f.endLine (k :: u) o hc.insideRoutine
  exact ⟨m, .staticFunction hc.inRoutine (isKeyword_of_reserved ho) (isKeyword_of_reserved hf) hm⟩

/-! ### Classes -/

/-- The elements are read as the members of a class, in front of the word that ends it. -/
structure ClassBody (is : List Element) (as : List Attribute) (rs : List Routine) : Prop where
  heads : Headed [.kwData, .kwMethod, .kwEndClass] is
  reads : ∀ ⦃ts l l'⦄, Printed l is ts l' → ∃ ms : List Member,
    as.map (·.name.text) = (ms.filterMap Member.attribute?).map (·.name.text) ∧
    Part.Same (.routines rs) (.routines (ms.filterMap Member.method?)) ∧
    ∀ (c : Context) (l₀ : Nat) (k : Token) (u : List Token),
      c.insideRoutine.Suits true (fun _ => Headers.routines rs) → .kwEndClass ∈ c.closers →
      k.isKeyword .kwEndClass = true →
      ∃ m l₁, Derives false m (.members c ms) ⟨l₀, ts ++ k :: u⟩ ⟨l₁, k :: u⟩

theorem classBody_nil : ClassBody [] [] [] where
  heads := by simp [Headed]
  reads := by
    intro ts l l' hts
    cases hts
    refine ⟨[], rfl, .noRoutines, fun c l₀ k u _ hc hk => ⟨0, l₀, .noMembers ?_⟩⟩
    rw [Token.isKeyword, beq_iff_eq] at hk
    simp [Spot.moreMembers, Spot.next, Token.isAny, TokenKind.keyword?, hk, hc]

/-- The line of an attribute ends in front of what is printed behind it. -/
theorem Headed.stops {ks : List Keyword} {l₁ : Nat} (h : Headed ks is) (hts : Printed l₁ is ts l')
    (hline : l < l₁) (hk : k.isAny c.closers = true) :
    (⟨l, ts ++ k :: u⟩ : Spot).stops c = true := by
  cases hts with
  | nil => simp [Spot.stops, hk]
  | word _ hfirst _ => simp [Spot.stops, hfirst, hline.ne']
  | lineEnd _ _ =>
      obtain ⟨_, _, _, hword⟩ := h _ rfl
      cases hword

theorem ClassBody.attribute {a : Attribute} {as : List Attribute} {rs : List Routine}
    (h : ClassBody is as rs) :
    ClassBody (.word (reserved style .kwData) :: .word (.identifier, a.name.text) ::
      .lineEnd :: is) (a :: as) rs where
  heads := by
    intro e he
    cases he
    exact ⟨.kwData, by decide, _, rfl⟩
  reads := by
    intro ts l l' hts
    obtain ⟨o, _, rfl, ho, -, hbehind⟩ := exists_first hts
    obtain ⟨i, us, rfl, hi, -, hbehind⟩ := exists_first hbehind
    cases hbehind with
    | lineEnd hlt hus =>
        obtain ⟨ms, has, hrs, hread⟩ := h.reads hus
        refine ⟨.data ⟨o, ⟨i⟩⟩ :: ms, congrArg₂ List.cons (literal_of_word hi).symm has, hrs,
          fun c l₀ k u hc hclose hk => ?_⟩
        have hnext := h.heads.isAny hus (isAny_of_isKeyword hk (by decide))
        obtain ⟨w, -, hword⟩ := Correspondence.isKeyword_of_isAny hnext
        have hcomma : (us.headD k).isPunctuation .comma = false := by
          rw [Token.isPunctuation, hword]
          rfl
        have hstops := h.heads.stops (u := u) hus hlt (isAny_of_isKeyword hk hclose)
        have hname : Names [⟨i⟩] ⟨o.endLine, i :: (us ++ k :: u)⟩ ⟨i.endLine, us ++ k :: u⟩ := by
          refine .last (kind_of_word hi) ?_
          rw [append_cons_headD]
          exact hcomma
        obtain ⟨m, l₁, hm⟩ := hread c i.endLine k u hc hclose hk
        exact ⟨m, l₁, .members (.attributes (isKeyword_of_reserved ho) hname hstops) hm⟩

theorem ClassBody.method {x : Routine} {rs : List Routine} (h : ClassBody js [] rs)
    (hx : Routined methodClosers .kwEndMethod is x) :
    ClassBody (.word (reserved style .kwMethod) :: is ++ .lineEnd :: js) [] (x :: rs) where
  heads := by
    intro e he
    cases he
    exact ⟨.kwMethod, by decide, _, rfl⟩
  reads := by
    intro ts l l' hts
    obtain ⟨_, vs, l₁, rfl, hbefore, hbehind⟩ := hts.split
    obtain ⟨o, us, rfl, ho, -, hus⟩ := exists_first hbefore
    cases hbehind with
    | lineEnd _ hvs =>
        obtain ⟨n, ns, b, k', hsame, hread⟩ := hx hus
        obtain ⟨ms, has, hrs, hread'⟩ := h.reads hvs
        refine ⟨.method ⟨o, n, ns, b, k'⟩ :: ms, has, .routines (hsame o) hrs,
          fun c l₀ k u hc hclose hk => ?_⟩
        obtain ⟨m₁, hm₁⟩ := hread c o.endLine (vs ++ k :: u) o hc.left
        obtain ⟨m₂, l₂, hm₂⟩ := hread' c l₁ k u hc.right hclose hk
        rw [List.append_assoc]
        exact ⟨max m₁ m₂, l₂, .members
          (.method (isKeyword_of_reserved ho) (hm₁.mono (le_max_left ..)))
          (hm₂.mono (le_max_right ..))⟩

/-- The elements are read as the class that a class is derived from. -/
def Deriving (is : List Element) (parent : Option Name) : Prop :=
  ∀ ⦃ts l l'⦄, Printed l is ts l' → ∃ parent', parent.map Name.text = parent'.map Name.text ∧
    ∀ (k : Token) (u : List Token), k.isKeyword .kwFrom = false →
      Parent parent' ⟨l, ts ++ k :: u⟩ ⟨l', k :: u⟩

theorem deriving_none : Deriving [] none := by
  intro ts l l' hts
  cases hts
  exact ⟨none, rfl, fun k u hk => .absent (by simpa [Spot.next] using hk)⟩

theorem deriving_some {p : Name} :
    Deriving [.word (reserved style .kwFrom), .word (.identifier, p.text)] (some p) := by
  intro ts l l' hts
  obtain ⟨o, _, rfl, ho, -, hbehind⟩ := exists_first hts
  obtain ⟨i, rfl, hi, -, rfl⟩ := exists_single hbehind
  refine ⟨some ⟨i⟩, by simp [Name.text, literal_of_word hi], fun k u _ => ?_⟩
  exact .named (isKeyword_of_reserved ho) (kind_of_word hi)

theorem ClassBody.classDef {parent : Option Name} {fs : List Element} {as : List Attribute}
    {rs : List Routine} {closing : Option Token} (h : ClassBody is as rs)
    (hparent : Deriving fs parent) :
    Line false (.word (reserved style .kwClass) :: .word (.identifier, n.text) :: fs ++
        .lineEnd :: is ++ [.word (reserved style .kwEndClass)])
      (.classDef ⟨t, n, parent, as, rs, closing⟩) := by
  intro ts l l' hts
  obtain ⟨_, k, rfl, hk, hbefore, rfl⟩ := exists_last hts
  obtain ⟨_, vs, l₁, rfl, hbefore, hbehind⟩ := hbefore.split
  obtain ⟨o, _, rfl, ho, -, hbefore⟩ := exists_first hbefore
  obtain ⟨i, us, rfl, hi, -, hus⟩ := exists_first hbefore
  cases hbehind with
  | lineEnd _ hvs =>
      obtain ⟨parent', hnamed, hderived⟩ := hparent hus
      obtain ⟨ms, has, hrs, hread⟩ := h.reads hvs
      refine ⟨.classDef ⟨o, ⟨i⟩, parent', ms.filterMap Member.attribute?,
        ms.filterMap Member.method?, some k⟩,
        .classDef (.classDefinition (literal_of_word hi).symm hnamed has hrs),
        fun c l₀ k₁ u hc _ _ => ?_⟩
      have hend := isKeyword_of_reserved hk
      have hnext := h.heads.isAny hvs (isAny_of_isKeyword hend (by decide))
      obtain ⟨w, hw, hword⟩ := Correspondence.isKeyword_of_isAny hnext
      have hfrom : (vs.headD k).isKeyword .kwFrom = false := by
        have hne : w ≠ .kwFrom := by
          rintro rfl
          simp at hw
        rw [Token.isKeyword, hword]
        simp [hne]
      have hparent := hderived (vs.headD k) (vs ++ k :: (k₁ :: u)).tail hfrom
      rw [← append_cons_headD] at hparent
      have hsuits : (c.enter classClosers).insideRoutine.Suits true fun _ => Headers.routines rs :=
        hc.insideRoutine.enter (by decide)
      obtain ⟨m, l₂, hm⟩ := hread (c.enter classClosers) l₁ k (k₁ :: u) hsuits
        (List.mem_append_left _ (by decide)) hend
      refine ⟨m, ?_⟩
      simp only [List.append_assoc, List.cons_append, List.nil_append]
      exact .classDef hc.inRoutine (isKeyword_of_reserved ho) (kind_of_word hi) hparent hm hend

end Grammar

end Clipper
