import Clipper.Proofs.Rendering.Expressions

/-!
Blocks in canonical form, read again. A statement ends with its line, and so does a header. Behind
the line stands the first word of a statement, or the word that closes the block.
-/

namespace Clipper

open Lexeme Layout Canonical

/-- In canonical form a line may begin so, or the text end. -/
def TokenKind.begins : TokenKind → Bool
  | keyword _ | identifier | integer | float | string | date | endOfInput => true
  | punctuation p => p == .openParen || p == .openBrace || p == .colonColon
  | _ => false

theorem TokenKind.begins_of_leads {r : Bool} {k : TokenKind} (h : k.leads r = true) :
    k.begins = true := by
  cases k <;> simp_all [leads, begins]

/-- A statement that goes on to this line ends in front of the token. -/
structure Token.Breaks (t : Token) (c : Context) (l : Nat) : Prop where
  begins : t.kind.begins = true
  apart : t.isEnd = true ∨ t.isAny c.closers = true ∨ t.line ≠ l

namespace Spot

variable {c : Context} {l : Nat} {t : Token} {u : List Token} {p : Nat}

/-- Outside delimiters an expression ends with its line. -/
theorem over_of_line (hc : c.delimited = false) (ht : t.line ≠ l) :
    (⟨l, t :: u⟩ : Spot).Over c where
  link := by simp [link?, hc, ht, Option.filter_eq_none_iff]
  unnamed := by simp [Unnamed, next, ht]

theorem over_of_isKeyword {k : Keyword} (ht : t.isKeyword k = true) :
    (⟨l, t :: u⟩ : Spot).Over c := by
  have hk : t.kind = .keyword k := beq_iff_eq.mp ht
  exact over_of_kind (by rw [hk]; rfl) (by simp [hk])

theorem over_of_isAny {ks : List Keyword} (ht : t.isAny ks = true) :
    (⟨l, t :: u⟩ : Spot).Over c := by
  obtain ⟨k, -, hk⟩ := Correspondence.isKeyword_of_isAny ht
  exact over_of_isKeyword (beq_iff_eq.mpr hk)

end Spot

namespace Token

variable {c : Context} {l : Nat} {t : Token} {u : List Token} {r : Bool} {ks : List Keyword}

theorem isAny_of_leads (hks : ∀ k ∈ ks, k.leads r = false) (ht : t.kind.leads r = true) :
    t.isAny ks = false := by
  rw [Bool.eq_false_iff]
  intro hany
  obtain ⟨k, hk, hkind⟩ := Correspondence.isKeyword_of_isAny hany
  rw [hkind] at ht
  exact absurd ht (by simp [TokenKind.leads, hks k hk])

theorem isEnd_of_leads (ht : t.kind.leads r = true) : t.isEnd = false := by
  rw [Token.isEnd, beq_eq_false_iff_ne]
  intro hend
  rw [hend] at ht
  cases ht

namespace Breaks

theorem stops (h : t.Breaks c l) : (⟨l, t :: u⟩ : Spot).stops c = true := by
  simpa [Spot.stops, or_assoc, or_left_comm, or_comm] using h.apart

theorem ends (h : t.Breaks c l) (hc : c.delimited = false) : (⟨l, t :: u⟩ : Spot).Over c := by
  rcases h.apart with hend | hany | hline
  · exact Spot.over_of_end hend
  · exact Spot.over_of_isAny hany
  · exact Spot.over_of_line hc hline

theorem not_comma (h : t.Breaks c l) :
    (⟨l, t :: u⟩ : Spot).next (·.isPunctuation .comma) = false := by
  have hbegins := h.begins
  simp only [Spot.next, List.head?_cons, Option.any_some, Token.isPunctuation, beq_eq_false_iff_ne]
  intro hk
  rw [hk] at hbegins
  cases hbegins

theorem not_assign (h : t.Breaks c l) :
    (⟨l, t :: u⟩ : Spot).next (·.isOperator .assign) = false := by
  have hbegins := h.begins
  simp only [Spot.next, List.head?_cons, Option.any_some, Token.isOperator, beq_eq_false_iff_ne]
  intro hk
  rw [hk] at hbegins
  cases hbegins

end Breaks

end Token

namespace Grammar

variable {c : Context} {l l' k₁ : Nat} {t k : Token} {ts u : List Token} {is js : List Element}
  {ps : List Piece} {x : Expr} {s : Stmt} {ss : List Stmt} {g : Guarded} {gs : List Guarded}
  {style : Style} {r : Bool} {P : Bool → Bool} {ks ks' : List Keyword}

/-! ### What comes next -/

/-- The first of some tokens and those behind it. -/
theorem append_cons_headD (ts : List Token) (k : Token) (u : List Token) :
    ts ++ k :: u = ts.headD k :: (ts ++ k :: u).tail := by
  cases ts <;> rfl

theorem append_append_headD (ts us : List Token) (k : Token) (u : List Token) :
    ts ++ (us ++ k :: u) = ts.headD (us.headD k) :: (ts ++ (us ++ k :: u)).tail := by
  cases ts with
  | nil => exact append_cons_headD us k u
  | cons => rfl

theorem isKeyword_of_reserved {w : Keyword} (h : t.word = reserved style w) :
    t.isKeyword w = true := by
  simp [Token.isKeyword, kind_of_word h, reserved]

theorem isAny_of_isKeyword {w : Keyword} (h : t.isKeyword w = true) (hw : w ∈ ks) :
    t.isAny ks = true := by
  rw [Token.isKeyword, beq_iff_eq] at h
  simpa [Token.isAny, TokenKind.keyword?, h] using hw

theorem isAny_of_subset (h : k.isAny ks = true) (hks : ∀ w ∈ ks, w ∈ ks') : k.isAny ks' = true := by
  obtain ⟨w, hw, hk⟩ := Correspondence.isKeyword_of_isAny h
  simpa [Token.isAny, TokenKind.keyword?, hk] using hks w hw

/-- There is nothing, or it begins with one of these words. -/
def Headed (ks : List Keyword) (is : List Element) : Prop :=
  ∀ e ∈ is.head?, ∃ k ∈ ks, ∃ text, e = .word (.keyword k, text)

theorem Headed.isAny (h : Headed ks is) (hts : Printed l is ts l') (hk : k.isAny ks = true) :
    (ts.headD k).isAny ks = true := by
  cases hts with
  | nil => exact hk
  | word ht _ _ =>
      obtain ⟨w, hw, _, hword⟩ := h _ rfl
      cases hword
      simpa [Token.isAny, TokenKind.keyword?, kind_of_word ht] using hw
  | lineEnd _ _ =>
      obtain ⟨_, _, _, hword⟩ := h _ rfl
      cases hword

/-! ### Statements -/

/-- The elements are read as the statement, in front of a token that it ends before. -/
def Line (r : Bool) (is : List Element) (s : Stmt) : Prop :=
  ∀ ⦃ts l l'⦄, Printed l is ts l' → ∃ s', Part.Same (.statement s) (.statement s') ∧
    ∀ (c : Context) (l₀ : Nat) (k : Token) (u : List Token), c.Suits r (fun _ => Headers.stmt s) →
      c.delimited = false → k.Breaks c l' →
      ∃ m, Derives false m (.statement c [s']) ⟨l₀, ts ++ k :: u⟩ ⟨l', k :: u⟩

/-- The elements are read as the statements, in front of a token that no statement begins with. The
first of them begins as it does in canonical form. -/
structure Paragraph (r : Bool) (is : List Element) (ss : List Stmt) : Prop where
  starts : is = [] ∨ Starts r (stmts ss) is
  reads : ∀ ⦃ts l l'⦄, Printed l is ts l' → ∃ ss', Part.Same (.statements ss) (.statements ss') ∧
    ∀ (c : Context) (l₀ : Nat) (k : Token) (u : List Token),
      c.Suits r (fun _ => Headers.stmts ss) → c.delimited = false →
      (k.isEnd = true ∨ k.isAny c.closers = true) →
      ∃ m l₁, Derives false m (.statements c ss') ⟨l₀, ts ++ k :: u⟩ ⟨l₁, k :: u⟩

theorem paragraph_nil : Paragraph r [] [] where
  starts := .inl rfl
  reads := by
    intro ts l l' hts
    cases hts
    exact ⟨[], .noStatements, fun c l₀ k u _ _ hk =>
      ⟨0, l₀, .noStatements (by simpa [Spot.blockEnds] using hk)⟩⟩

/-- What comes next is the first word of a statement, or what stands behind all of them. -/
theorem headD_of_starts {q : TokenKind → Prop} (hstarts : is = [] ∨ Starts r ps is)
    (hts : Printed l is ts l') (hleads : ∀ k : TokenKind, k.leads r = true → q k) (hk : q k.kind) :
    q (ts.headD k).kind := by
  rcases hstarts with rfl | hstarts
  · cases hts
    exact hk
  · obtain ⟨t, us, rfl, ht, -⟩ := hstarts.exists_first hts
    exact hleads _ ht

theorem begins_of_end (hk : k.isEnd = true ∨ k.isAny ks = true) : k.kind.begins = true := by
  rcases hk with hk | hk
  · rw [beq_iff_eq.mp hk]
    rfl
  · obtain ⟨w, -, hw⟩ := Correspondence.isKeyword_of_isAny hk
    rw [hw]
    rfl

/-- What is printed behind the end of a line begins a line. -/
theorem breaks_headD (hstarts : is = [] ∨ Starts r ps is) (hts : Printed k₁ is ts l')
    (hline : l < k₁) (hk : k.isEnd = true ∨ k.isAny c.closers = true) :
    (ts.headD k).Breaks c l where
  begins := headD_of_starts hstarts hts (fun _ => TokenKind.begins_of_leads) (begins_of_end hk)
  apart := by
    rcases hstarts with rfl | hstarts
    · cases hts
      exact hk.imp_right .inl
    · obtain ⟨t, us, rfl, ht, rfl, -⟩ := hstarts.exists_first hts
      exact .inr (.inr hline.ne')

theorem Paragraph.cons (hss : Paragraph r js ss) (hstarts : Starts r (stmt s) is)
    (hs : Line r is s) : Paragraph r (is ++ .lineEnd :: js) (s :: ss) where
  starts := .inr hstarts.append
  reads := by
    intro ts l l' hts
    obtain ⟨us, vs, l₁, rfl, hus, hbehind⟩ := hts.split
    cases hbehind with
    | @lineEnd _ l₂ _ _ _ hlt hvs =>
        obtain ⟨s', hs', hread⟩ := hs hus
        obtain ⟨ss', hss', hread'⟩ := hss.reads hvs
        refine ⟨s' :: ss', .statements hs' hss', fun c l₀ k u hc hline hk => ?_⟩
        have hbreaks := breaks_headD hss.starts hvs hlt hk
        obtain ⟨m, hm⟩ := hread c l₀ _ (vs ++ k :: u).tail hc.left hline hbreaks
        obtain ⟨n, l₃, hn⟩ := hread' c l₁ k u hc.right hline hk
        rw [← append_cons_headD] at hm
        obtain ⟨t, us', rfl, ht, -⟩ := hstarts.exists_first hus
        have hgoes : (⟨l₀, t :: us' ++ (vs ++ k :: u)⟩ : Spot).blockEnds c = false := by
          simp [Spot.blockEnds, Token.isEnd_of_leads ht, Token.isAny_of_leads hc.closers ht]
        rw [List.append_assoc]
        exact ⟨max m n, l₃, .statements hgoes (hm.mono (le_max_left ..))
          (hn.mono (le_max_right ..))⟩

/-! ### Headers -/

theorem Derives.block_headD {lax : Bool} {m : Nat} {s' : Spot} (ts : List Token) (k : Token)
    (h : Derives lax m (.statements c ss) ⟨l, ts ++ k :: u⟩ s') :
    Derives lax m (.block c ⟨ts.headD k, ss⟩) ⟨l, ts ++ k :: u⟩ s' := by
  rw [append_cons_headD] at h ⊢
  exact .block h

/-- No header goes on in front of its block. -/
theorem over_header (hss : Paragraph r is ss) (hts : Printed k₁ is ts l') (hline : l < k₁)
    (hc : c.Suits r fun d => Headers.headed d ⟨t, ss⟩) (hk : k.isAny ks = true) :
    (⟨l, ts ++ k :: u⟩ : Spot).Over c := by
  rcases hss.starts with rfl | hstarts
  · cases hts
    exact Spot.over_of_isAny hk
  obtain ⟨t', us, rfl, ht, rfl, hgroup⟩ := hstarts.exists_first hts
  cases hdelimited : c.delimited with
  | false => exact Spot.over_of_line hdelimited hline.ne'
  | true =>
      -- A parenthesis would open the arguments of a call, and nothing else goes on.
      have hopens : Headers.opensGroup ss = false := by
        have hheaders := hc.headers
        rw [hdelimited, Headers.headed, Bool.true_and, Bool.and_eq_true] at hheaders
        simpa using hheaders.1
      have hlink : Link.ofKind? t'.kind = none := by
        cases hkind : t'.kind with
        | punctuation p =>
            rw [hkind] at ht hgroup
            cases p with
            | openParen =>
                rw [Headers.opensGroup, hgroup rfl] at hopens
                simp at hopens
            | openBrace | colonColon => rfl
            | _ => cases ht
        | operator o =>
            rw [hkind] at ht
            cases ht
        | _ => rfl
      refine ⟨link?_other hlink, ?_⟩
      simp [Spot.Unnamed, Spot.next, hline.ne']

theorem suits_body (hc : c.Suits r fun d => Headers.headed d ⟨t, ss⟩)
    (hks : ∀ k ∈ ks, k.leads r = false) :
    (c.insideExpression.enter ks).Suits r fun _ => Headers.stmts ss :=
  hc.right.insideExpression.enter hks

/-! ### Conditionals -/

/-- The elements are read as a condition with its statements, in front of a word that ends them. -/
def Guards (r : Bool) (is : List Element) (g : Guarded) : Prop :=
  ∀ ⦃ts l l'⦄, Printed l is ts l' → ∀ k : Token, ∃ x b,
    (∀ t, Part.Same (.guarded g) (.guarded ⟨t, x, b⟩)) ∧
    ∀ (c : Context) (l₀ : Nat) (u : List Token) (ks : List Keyword) (t : Token),
      c.Suits r (Headers.guarded · g) → (∀ w ∈ ks, w.leads r = false) → k.isAny ks = true →
      ∃ m l₁, Derives false m (.guarded c ks ⟨t, x, b⟩) ⟨l₀, ts ++ k :: u⟩ ⟨l₁, k :: u⟩

/-- The elements are read as further branches. -/
structure Branching (r : Bool) (is : List Element) (gs : List Guarded) : Prop where
  heads : Headed branchClosers is
  reads : ∀ ⦃ts l l'⦄, Printed l is ts l' → ∀ k : Token, ∃ gs',
    Part.Same (.branches gs) (.branches gs') ∧
    ∀ (c : Context) (l₀ : Nat) (u : List Token), c.Suits r (Headers.branches · gs) →
      k.isAny [.kwElse, .kwEndIf] = true →
      ∃ m l₁, Derives false m (.branches c gs') ⟨l₀, ts ++ k :: u⟩ ⟨l₁, k :: u⟩

/-- The elements are read as the last branch, if there is one. -/
structure Otherwise (r : Bool) (is : List Element) (b : Option Block) : Prop where
  heads : Headed [.kwElse, .kwEndIf] is
  reads : ∀ ⦃ts l l'⦄, Printed l is ts l' → ∀ k : Token, ∃ b',
    Part.Same (.blockIfAny b) (.blockIfAny b') ∧
    ∀ (c : Context) (l₀ : Nat) (u : List Token), c.Suits r (fun _ => Headers.blockIfAny b) →
      k.isKeyword .kwEndIf = true →
      ∃ m l₁, Derives false m (.alternative c b') ⟨l₀, ts ++ k :: u⟩ ⟨l₁, k :: u⟩

theorem Loose.guards {t' : Token} (hx : Loose r (Headers.expression false · x) is x)
    (hss : Paragraph r js ss) : Guards r (is ++ .lineEnd :: js) ⟨t, x, ⟨t', ss⟩⟩ := by
  intro ts l l' hts k
  obtain ⟨us, vs, l₁, rfl, hus, hbehind⟩ := hts.split
  cases hbehind with
  | lineEnd hlt hvs =>
      obtain ⟨y, hy, hread⟩ := hx hus
      obtain ⟨ss', hss', hread'⟩ := hss.reads hvs
      refine ⟨y, ⟨vs.headD k, ss'⟩, fun t => .guarded hy (.block hss'),
        fun c l₀ u ks t hc hks hk => ?_⟩
      obtain ⟨m, hm⟩ :=
        hread c l₀ (vs ++ k :: u) hc.left (over_header hss hvs hlt hc.right hk)
      obtain ⟨n, l₂, hn⟩ := hread' (c.insideExpression.enter ks) l₁ k u
        (suits_body hc.right hks) rfl (.inr (isAny_of_subset hk fun _ => List.mem_append_left _))
      rw [List.append_assoc]
      exact ⟨max m n, l₂, .guarded (hm.mono (le_max_left ..))
        ((hn.mono (le_max_right ..)).block_headD vs k)⟩

theorem branching_nil : Branching r [] [] where
  heads := by simp [Headed]
  reads := by
    intro ts l l' hts k
    cases hts
    refine ⟨[], .noBranches, fun c l₀ u _ hk => ⟨0, l₀, .noBranches ?_⟩⟩
    obtain ⟨w, hw, hk⟩ := Correspondence.isKeyword_of_isAny hk
    have hne : w ≠ .kwElseIf := by
      rintro rfl
      simp at hw
    simp [Spot.next, Token.isKeyword, hk, hne]

theorem leads_branchClosers : ∀ k ∈ branchClosers, k.leads r = false := by
  cases r <;> decide

theorem Guards.branching (hg : Guards r is g) (hgs : Branching r js gs) :
    Branching r (.word (reserved style .kwElseIf) :: is ++ js) (g :: gs) where
  heads := by
    intro e he
    cases he
    exact ⟨.kwElseIf, by decide, _, rfl⟩
  reads := by
    intro ts l l' hts k
    obtain ⟨_, vs, l₁, rfl, hbefore, hvs⟩ := hts.split
    obtain ⟨o, us, rfl, ho, -, hus⟩ := exists_first hbefore
    obtain ⟨x, b, hsame, hread⟩ := hg hus (vs.headD k)
    obtain ⟨gs', hgs', hread'⟩ := hgs.reads hvs k
    refine ⟨⟨o, x, b⟩ :: gs', .branches (hsame o) hgs', fun c l₀ u hc hk => ?_⟩
    have hnext := hgs.heads.isAny hvs (isAny_of_subset hk (by decide))
    obtain ⟨m, l₂, hm⟩ := hread c o.endLine (vs ++ k :: u).tail branchClosers o hc.left
      leads_branchClosers hnext
    obtain ⟨n, l₃, hn⟩ := hread' c l₂ u hc.right hk
    rw [← append_cons_headD] at hm
    rw [List.append_assoc]
    exact ⟨max m n, l₃, .branches (isKeyword_of_reserved ho) (hm.mono (le_max_left ..))
      (hn.mono (le_max_right ..))⟩

theorem otherwise_none : Otherwise r [] none where
  heads := by simp [Headed]
  reads := by
    intro ts l l' hts k
    cases hts
    refine ⟨none, .noBlock, fun c l₀ u _ hk => ⟨0, l₀, .noAlternative ?_⟩⟩
    rw [Token.isKeyword, beq_iff_eq] at hk
    simp [Spot.next, Token.isKeyword, hk]

theorem Paragraph.otherwise (hss : Paragraph r is ss) :
    Otherwise r (.word (reserved style .kwElse) :: .lineEnd :: is) (some ⟨t, ss⟩) where
  heads := by
    intro e he
    cases he
    exact ⟨.kwElse, by decide, _, rfl⟩
  reads := by
    intro ts l l' hts k
    obtain ⟨o, us, rfl, ho, -, hus⟩ := exists_first hts
    cases hus with
    | lineEnd _ hus =>
        obtain ⟨ss', hss', hread⟩ := hss.reads hus
        refine ⟨some ⟨us.headD k, ss'⟩, .someBlock (.block hss'), fun c l₀ u hc hk => ?_⟩
        have hsuits : (c.insideExpression.enter [.kwEndIf]).Suits r fun _ => Headers.stmts ss :=
          hc.insideExpression.enter (by cases r <;> decide)
        obtain ⟨m, l₁, hm⟩ := hread _ o.endLine k u hsuits rfl
          (.inr (isAny_of_isKeyword hk List.mem_cons_self))
        exact ⟨m, l₁, .alternative (isKeyword_of_reserved ho) (hm.block_headD us k)⟩

/-- A conditional ends with its own word, whatever goes on behind it. -/
theorem tight_branch {os : List Element} {other : Option Block} {closing : Option Token}
    (hg : Guards r is g) (hgs : Branching r js gs) (ho : Otherwise r os other) :
    Tight r (fun d => Headers.guarded d g && (Headers.branches d gs && Headers.blockIfAny other))
      (.word (reserved style .kwIf) :: is ++ js ++ os ++ [.word (reserved style .kwEndIf)])
      (.branch g gs other closing) := by
  intro ts l l' hts
  obtain ⟨_, k, rfl, hk, hbefore, rfl⟩ := exists_last hts
  obtain ⟨_, ws, l₂, rfl, hbefore, hws⟩ := hbefore.split
  obtain ⟨_, vs, l₁, rfl, hbefore, hvs⟩ := hbefore.split
  obtain ⟨o, us, rfl, hif, -, hus⟩ := exists_first hbefore
  obtain ⟨x, b, hsame, hread⟩ := hg hus (vs.headD (ws.headD k))
  obtain ⟨gs', hgs', hread'⟩ := hgs.reads hvs (ws.headD k)
  obtain ⟨other', hother, hread''⟩ := ho.reads hws k
  refine ⟨.branch ⟨o, x, b⟩ gs' other' (some k), .branch (hsame o) hgs' hother,
    fun c p l₀ u z s hc _ _ => exists_expression ?_⟩
  have hend := isKeyword_of_reserved hk
  have hother := ho.heads.isAny hws (isAny_of_isKeyword hend (by decide))
  have hothers := hgs.heads.isAny hvs (isAny_of_subset hother (by decide))
  obtain ⟨m, l₃, hm⟩ := hread c o.endLine (vs ++ (ws ++ k :: u)).tail branchClosers o hc.left
    leads_branchClosers hothers
  obtain ⟨n, l₄, hn⟩ := hread' c l₃ (ws ++ k :: u).tail hc.right.left hother
  obtain ⟨n', l₅, hn'⟩ := hread'' c l₄ u hc.right.right hend
  rw [← append_append_headD] at hm
  rw [← append_cons_headD] at hn
  refine ⟨max m (max n n'), ?_⟩
  simp only [List.append_assoc, List.cons_append, List.nil_append]
  exact .branch (isKeyword_of_reserved hif) (hm.mono (by omega)) (hn.mono (by omega))
    (hn'.mono (by omega)) hend

/-! ### Loops -/

theorem tight_whileLoop {closing : Option Token} (hg : Guards r is g) :
    Tight r (fun d => Headers.guarded d g)
      (.word (reserved style .kwWhile) :: is ++ [.word (reserved style .kwEndDo)])
      (.whileLoop g closing) := by
  intro ts l l' hts
  obtain ⟨_, k, rfl, hk, hbefore, rfl⟩ := exists_last hts
  obtain ⟨o, us, rfl, ho, -, hus⟩ := exists_first hbefore
  obtain ⟨x, b, hsame, hread⟩ := hg hus k
  refine ⟨.whileLoop ⟨o, x, b⟩ (some k), .whileLoop (hsame o),
    fun c p l₀ u z s hc _ _ => exists_expression ?_⟩
  have hend := isKeyword_of_reserved hk
  obtain ⟨m, l₁, hm⟩ := hread c o.endLine u [.kwEndDo] o hc (by cases r <;> decide)
    (isAny_of_isKeyword hend List.mem_cons_self)
  rw [List.append_assoc]
  exact ⟨m, .whileLoop (.while (isKeyword_of_reserved ho)) hm hend⟩

/-- The elements are read as the step of a loop, in front of its block. -/
def Stepping (r : Bool) (is : List Element) (x : Option Expr) : Prop :=
  ∀ ⦃ts l l'⦄, Printed l is ts l' → ∃ y, Part.Same (.expressionIfAny x) (.expressionIfAny y) ∧
    ∀ (c : Context) (k : Token) (u : List Token), c.Suits r (Headers.ifAny · x) →
      k.isKeyword .kwStep = false → (⟨l', k :: u⟩ : Spot).Over c →
      (⟨l, ts ++ k :: u⟩ : Spot).Over c ∧
      ∃ m, Derives false m (.step c y) ⟨l, ts ++ k :: u⟩ ⟨l', k :: u⟩

theorem stepping_none : Stepping r [] none := by
  intro ts l l' hts
  cases hts
  exact ⟨none, .noExpression, fun c k u _ hk hend =>
    ⟨hend, 0, .noStep (by simpa [Spot.next] using hk)⟩⟩

theorem Loose.stepping (hx : Loose r (Headers.expression false · x) is x) :
    Stepping r (.word (reserved style .kwStep) :: is) (some x) := by
  intro ts l l' hts
  obtain ⟨o, us, rfl, ho, -, hus⟩ := exists_first hts
  obtain ⟨y, hy, hread⟩ := hx hus
  refine ⟨some y, .someExpression hy, fun c k u hc hk hend => ?_⟩
  have hword := isKeyword_of_reserved ho
  obtain ⟨m, hm⟩ := hread c o.endLine (k :: u) hc hend
  exact ⟨Spot.over_of_isKeyword hword, m, .step hword hm⟩

theorem tight_forLoop {n : Name} {y : Expr} {z : Option Expr} {zs bs : List Element} {t' : Token}
    {closing : Option Token} (hx : Loose r (Headers.expression false · x) is x)
    (hy : Loose r (Headers.expression false · y) js y) (hz : Stepping r zs z)
    (hss : Paragraph r bs ss) :
    Tight r (fun d => Headers.expression false d x && (Headers.expression false d y &&
        (Headers.ifAny d z && Headers.headed d ⟨t', ss⟩)))
      ((.word (reserved style .kwFor) :: .word (.identifier, n.text) ::
          .word (operated style .assign) :: is) ++ .word (reserved style .kwTo) :: js ++ zs ++
        .lineEnd :: bs ++ [.word (reserved style .kwNext)])
      (.forLoop t n x y z ⟨t', ss⟩ closing) := by
  intro ts l l' hts
  obtain ⟨_, k, rfl, hk, hbefore, rfl⟩ := exists_last hts
  obtain ⟨_, vs, l₃, rfl, hbefore, hbehind⟩ := hbefore.split
  obtain ⟨_, ws, l₂, rfl, hbefore, hws⟩ := hbefore.split
  obtain ⟨_, o, us', rfl, ho, hbefore, hus'⟩ := exists_around hbefore
  obtain ⟨f, _, rfl, hf, -, hbefore⟩ := exists_first hbefore
  obtain ⟨i, _, rfl, hi, -, hbefore⟩ := exists_first hbefore
  obtain ⟨a, us, rfl, ha, -, hus⟩ := exists_first hbefore
  cases hbehind with
  | lineEnd hlt hvs =>
      obtain ⟨x', hx', hstart⟩ := hx hus
      obtain ⟨y', hy', hstop⟩ := hy hus'
      obtain ⟨z', hz', hstep⟩ := hz hws
      obtain ⟨ss', hss', hbody⟩ := hss.reads hvs
      refine ⟨.forLoop f ⟨i⟩ x' y' z' ⟨vs.headD k, ss'⟩ (some k),
        .forLoop (literal_of_word hi).symm hx' hy' hz' (.block hss'),
        fun c p l₀ u _ s hc _ hunnamed => exists_expression ?_⟩
      have hnext := isKeyword_of_reserved hk
      have hto := isKeyword_of_reserved ho
      have hany : k.isAny [.kwNext] = true := isAny_of_isKeyword hnext List.mem_cons_self
      have hover : (⟨o.line, o :: (us' ++ (ws ++ (vs ++ k :: u)))⟩ : Spot).Over c :=
        Spot.over_of_isKeyword hto
      have hheader : (⟨l₃, vs ++ k :: u⟩ : Spot).Over c :=
        over_header hss hvs hlt hc.right.right.right hany
      have hplain : (vs.headD k).isKeyword .kwStep = false := by
        have hother : (vs.headD k).kind ≠ .keyword .kwStep := by
          refine headD_of_starts (q := (· ≠ .keyword .kwStep)) hss.starts hvs ?_ ?_
          · rintro _ hleads rfl
            cases r <;> cases hleads
          · simp [kind_of_word hk, reserved]
        simpa [Token.isKeyword] using hother
      rw [append_cons_headD] at hheader
      -- The step is read up to the block's first word, and the bound up to the step.
      obtain ⟨hover', m₃, hm₃⟩ := hstep c _ _ hc.right.right.left hplain hheader
      rw [← append_cons_headD] at hover' hm₃
      obtain ⟨m₁, hm₁⟩ := hstart c a.endLine _ hc.left hover
      obtain ⟨m₂, hm₂⟩ := hstop c o.endLine _ hc.right.left hover'
      have hsuits : (c.insideExpression.enter [.kwNext]).Suits r fun _ => Headers.stmts ss :=
        suits_body hc.right.right.right (by cases r <;> decide)
      obtain ⟨m₄, l₄, hm₄⟩ := hbody _ l₃ k u hsuits rfl
        (.inr (isAny_of_subset hany fun _ => List.mem_append_left _))
      refine ⟨max (max m₁ m₂) (max m₃ m₄), ?_⟩
      simp only [List.append_assoc, List.cons_append, List.nil_append]
      have hsign : (a.isOperator .assign || a.isOperator .equal) = true := by
        simp [Token.isOperator, kind_of_word ha, operated]
      exact .forLoop (isKeyword_of_reserved hf) (kind_of_word hi) hsign (hm₁.mono (by omega)) hto
        (hm₂.mono (by omega)) (hm₃.mono (by omega))
        ((hm₄.mono (by omega)).block_headD vs k) hnext (.absent hunnamed)

end Grammar

end Clipper
