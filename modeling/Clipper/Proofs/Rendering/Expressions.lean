import Clipper.Proofs.Rendering.Operands

/-!
Every node of an expression in canonical form, written and read again. A canonical form begins with
a word that a statement may begin with, so that the same is known of an expression on a line of its
own.
-/

namespace Clipper

namespace Canonical

open Lexeme Layout Grammar

variable {style : Style} {r : Bool} {t : Token} {x y : Expr} {xs : List Expr} {n m : Name}
  {ps qs : List Piece} {is js : List Element}

/-- The elements begin with a word that a statement may begin with, and with a parenthesis only
where the pieces do. -/
def Starts (r : Bool) (ps : List Piece) (is : List Element) : Prop :=
  ∃ w js, is = .word w :: js ∧ w.1.leads r = true ∧
    (w.1 = .punctuation .openParen → ps.head? = some (mark .openParen))

theorem Starts.append (h : Starts r ps is) : Starts r (ps ++ qs) (is ++ js) := by
  obtain ⟨w, ks, rfl, hw, hgroup⟩ := h
  refine ⟨w, ks ++ js, rfl, hw, fun hparen => ?_⟩
  rw [List.head?_append, hgroup hparen, Option.some_or]

theorem starts_word {w : Word} (hw : w.1.leads r = true) (hgroup : w.1 ≠ .punctuation .openParen) :
    Starts r ps (.word w :: is) :=
  ⟨w, is, rfl, hw, fun hparen => absurd hparen hgroup⟩

theorem Starts.exists_first {ts : List Token} {l l' : Nat} (h : Starts r ps is)
    (hts : Printed l is ts l') :
    ∃ t us, ts = t :: us ∧ t.kind.leads r = true ∧ t.line = l ∧
      (t.kind = .punctuation .openParen → ps.head? = some (mark .openParen)) := by
  obtain ⟨w, js, rfl, hw, hgroup⟩ := h
  obtain ⟨t, us, rfl, ht, hline, -⟩ := Grammar.exists_first hts
  have hkind := kind_of_word ht
  exact ⟨t, us, rfl, hkind ▸ hw, hline, fun hparen => hgroup (hkind ▸ hparen)⟩

/-- The pieces make these elements wherever an expression may begin, and stand there as a statement
might. -/
structure Stands (style : Style) (r : Bool) (ps : List Piece) (is : List Element) : Prop where
  tells : Tells style .free .behind ps is
  starts : Starts r ps is

theorem Stands.append (h : Stands style r ps is) (hqs : Tells style .behind .behind qs js) :
    Stands style r (ps ++ qs) (is ++ js) :=
  ⟨h.tells.append hqs, h.starts.append⟩

/-- The tree is read from its canonical form, as an operand and alone. -/
structure Rereads (style : Style) (r : Bool) (x : Expr) : Prop where
  nested : ∃ is, Stands style r (expression true x) is ∧
    Tight r (Headers.expression true · x) is x
  alone : ∃ is, Stands style r (expression false x) is ∧
    Loose r (Headers.expression false · x) is x

/-- Only an assignment is in parentheses because it is an operand. -/
theorem rereads_of_tight (hx : ∀ nested, Stands style r (expression nested x) is)
    (h : ∀ nested, Tight r (Headers.expression nested · x) is x) : Rereads style r x :=
  ⟨⟨is, hx true, h true⟩, is, hx false, (h false).loose⟩

/-! ### Brackets -/

theorem exists_row (h : ∀ x ∈ xs, Rereads style r x) (hne : xs ≠ []) :
    ∃ is, Tells style .free .behind (expressions xs) is ∧
      LooseRow r (Headers.expressions xs) is xs := by
  induction xs with
  | nil => exact absurd rfl hne
  | cons x xs ih =>
      rw [List.forall_mem_cons] at h
      obtain ⟨is, his, hx⟩ := h.1.alone
      rw [Headers.expressions]
      cases xs with
      | nil =>
          rw [Headers.expressions, Bool.and_true]
          exact ⟨is, his.tells, hx.row⟩
      | cons y ys =>
          obtain ⟨js, hjs, hrow⟩ := ih h.2 (by simp)
          exact ⟨_, his.tells.append (tells_comma.append hjs), hx.row_cons hrow⟩

/-- Expressions between brackets. -/
theorem exists_bracketed (h : ∀ x ∈ xs, Rereads style r x) (close : Punctuation)
    (hclose : closes close = true) :
    ∃ is, Tells style .within .behind (expressions xs ++ [mark close]) is ∧
      Bracketed close r (Headers.expressions xs) is xs := by
  by_cases hne : xs = []
  · subst hne
    exact ⟨_, (tells_closing hclose).inside, bracketed_nil close⟩
  · obtain ⟨is, his, hrow⟩ := exists_row h hne
    exact ⟨_, his.within.append (tells_closing hclose), hrow.bracketed hclose⟩

/-- A bracket that opens an expression. -/
theorem stands_open {p : Punctuation} (hp : isColon p = false)
    (hleads : (TokenKind.punctuation p).leads r = true)
    (hps : Tells style .within .behind ps is) :
    Stands style r (mark p :: ps) (.word (marked p) :: is) :=
  ⟨(tells_open hp).append hps, marked p, is, rfl, hleads, fun h => by cases h; rfl⟩

/-- An expression in parentheses. -/
theorem stands_group (hps : Tells style .within .behind ps is) :
    Stands style r (mark .openParen :: ps ++ [mark .closeParen])
      (.word (marked .openParen) :: is ++ [.word (marked .closeParen)]) :=
  (stands_open rfl rfl hps).append (tells_closing rfl)

/-! ### Names and literals -/

/-- A tree of one word. -/
theorem rereads_token {w : Word} (hw : w.1.leads r = true)
    (hgroup : w.1 ≠ .punctuation .openParen)
    (hx : ∀ nested, Tells style .free .behind (expression nested x) [.word w])
    (h : ∀ u : Token, u.kind = w.1 → u.literal = w.2 →
      ∃ y, Part.Same (.expression x) (.expression y) ∧ ∀ c l v,
        Derives false 0 (.operand c y) ⟨l, u :: v⟩ ⟨u.endLine, v⟩) : Rereads style r x :=
  rereads_of_tight (fun nested => ⟨hx nested, starts_word hw hgroup⟩)
    fun _ => tight_token fun u hu => h u (kind_of_word hu) (literal_of_word hu)

theorem rereads_name (hself : n.token.isKeyword .kwSelf = false) (hn : Named n) :
    Rereads style r (.name n) := by
  have hpieces : ∀ nested, Tells style .free .behind (expression nested (.name n))
      [.word (.identifier, n.text)] := by
    intro nested
    show Tells style .free .behind [name n] _
    rw [name, hself]
    exact tells_text hn rfl
  refine rereads_token rfl (by simp) hpieces fun u hu hname => ?_
  have hother : u.isKeyword .kwSelf = false := by simp [Token.isKeyword, hu]
  exact ⟨.name ⟨u⟩, .name hself hother hname.symm, fun c l v => .name (.inl hu)⟩

/-- The receiver is in the case of the style, which keeps it the receiver. -/
theorem rereads_receiver (hself : n.token.isKeyword .kwSelf = true) (hn : n.isSelf = true) :
    Rereads style r (.name n) := by
  have hpieces : ∀ nested, Tells style .free .behind (expression nested (.name n))
      [.word (reserved style .kwSelf)] := by
    intro nested
    show Tells style .free .behind [name n] _
    rw [name, hself]
    exact tells_keyword .kwSelf
  refine rereads_token rfl (by simp [reserved]) hpieces fun u hu hword => ?_
  have hall : ∀ k : KeywordCase, Keyword.ofWord? (keywordText k .kwSelf) = some .kwSelf := by
    intro k
    cases k <;> decide
  have hagain : (⟨u⟩ : Name).isSelf = true := by
    show (Keyword.ofWord? u.literal == some .kwSelf) = true
    rw [hword, reserved, hall]
    rfl
  have hreserved : u.isKeyword .kwSelf = true := by simp [Token.isKeyword, hu, reserved]
  exact ⟨.name ⟨u⟩, .receiver hself hreserved hn hagain, fun c l v => .name (.inr hu)⟩

theorem rereads_integer (ht : Spells .integer t.literal.toList)
    (hbound : Binary64.ofDigits t.literal.toList < integerBound) :
    Rereads style r (.integer t (Binary64.ofDigits t.literal.toList)) := by
  refine rereads_token rfl (by simp) (fun nested => tells_text ht rfl) fun u hu hdigits => ?_
  have hdigits : u.literal = t.literal := hdigits
  rw [← hdigits] at hbound ⊢
  exact ⟨.integer u _, .integer hdigits.symm, fun c l v => .integer hu hbound⟩

theorem rereads_float {bits : UInt64} (ht : Spells .float t.literal.toList)
    (hbits : Binary64.ofDecimal? t.literal.toList = some bits) :
    Rereads style r (.float t bits) := by
  refine rereads_token rfl (by simp) (fun nested => tells_text ht rfl) fun u hu hdigits => ?_
  have hdigits : u.literal = t.literal := hdigits
  rw [← hdigits] at hbits
  exact ⟨.float u bits, .float hdigits.symm, fun c l v => .float hu hbits⟩

theorem stringBody_closed {d : Char} {cs : List Char} (h : Body d cs) :
    Literal.stringBody d (cs ++ [d]) = cs := by
  induction h with
  | nil => simp [Literal.stringBody]
  | escape _ ih => simp [Literal.stringBody, ih]
  | char hslash hne _ ih => simp [Literal.stringBody, hslash, hne, ih]

theorem stringParts_closed {d : Char} {body : String} (hbody : Body d body.toList) :
    Literal.stringParts (d.toString ++ body ++ d.toString) = (d, body) := by
  have hlist : (d.toString ++ body ++ d.toString).toList = d :: (body.toList ++ [d]) := by
    simp [Char.toString]
  rw [Literal.stringParts, hlist]
  simp only [stringBody_closed hbody, String.ofList_toList]

theorem rereads_string {d : Char} {body : String} (hd : isDelimiter d = true)
    (hbody : Body d body.toList) : Rereads style r (.string t d body) := by
  refine rereads_token rfl (by simp) (fun nested => tells_string hd hbody) fun u hu hstring => ?_
  have hparts : Literal.stringParts u.literal = (d, body) := by
    rw [hstring]
    exact stringParts_closed hbody
  refine ⟨.string u d body, .string, fun c l v => ?_⟩
  have hderived : Derives false 0 (.operand c (.string u (Literal.stringParts u.literal).1
      (Literal.stringParts u.literal).2)) ⟨l, u :: v⟩ ⟨u.endLine, v⟩ := .string hu
  rwa [hparts] at hderived

theorem rereads_date (ht : Spells .date t.literal.toList) : Rereads style r (.date t) := by
  refine rereads_token rfl (by simp) (fun nested => tells_text ht rfl) fun u hu hdate => ?_
  exact ⟨.date u, .date hdate.symm, fun c l v => .date hu⟩

theorem rereads_boolean (value : Bool) : Rereads style r (.boolean t value) := by
  have hleads : (reserved style (if value then .kwTrue else .kwFalse)).1.leads r = true := by
    cases value <;> rfl
  refine rereads_token hleads (by simp [reserved]) (fun nested => tells_keyword _) fun u hu _ => ?_
  exact ⟨.boolean u value, .boolean, fun c l v => .boolean hu⟩

theorem rereads_nil : Rereads style r (.nil t) := by
  refine rereads_token rfl (by simp [reserved]) (fun nested => tells_keyword .kwNil)
    fun u hu _ => ?_
  exact ⟨.nil u, .nil, fun c l v => .nil hu⟩

/-! ### Nodes -/

theorem rereads_array (h : ∀ x ∈ xs, Rereads style r x) : Rereads style r (.array t xs) := by
  obtain ⟨is, his, hxs⟩ := exists_bracketed h .closeBrace rfl
  exact rereads_of_tight (fun nested => stands_open rfl rfl his) fun nested => hxs.array

theorem rereads_unary (op : UnaryOp) (hx : Rereads style r x) :
    Rereads style r (.unary t op x) := by
  obtain ⟨is, his, hx⟩ := hx.nested
  have hinner := (tells_unary op).append his.tells
  exact rereads_of_tight (fun nested => stands_group hinner) fun nested => hx.unary.group

theorem rereads_binary (op : BinaryOp) (hx : Rereads style r x) (hy : Rereads style r y) :
    Rereads style r (.binary t op x y) := by
  obtain ⟨is, his, hx⟩ := hx.nested
  obtain ⟨js, hjs, hy⟩ := hy.nested
  have hinner := his.tells.within.append ((tells_operator op.operator).append hjs.tells)
  exact rereads_of_tight (fun nested => stands_group hinner) fun nested => (hx.binary hy).group

theorem rereads_call (hx : Rereads style r x) (hxs : ∀ y ∈ xs, Rereads style r y) :
    Rereads style r (.call t x xs) := by
  obtain ⟨is, his, hx⟩ := hx.nested
  obtain ⟨js, hjs, hxs⟩ := exists_bracketed hxs .closeParen rfl
  refine rereads_of_tight (fun nested => ?_) fun nested => hx.call hxs
  show Stands style r
    (expression true x ++ mark .openParen :: expressions xs ++ [mark .closeParen]) _
  rw [List.append_assoc]
  exact his.append ((tells_mark rfl (by decide)).append hjs)

theorem rereads_index (hx : Rereads style r x) (hy : Rereads style r y) :
    Rereads style r (.index t x y) := by
  obtain ⟨is, his, hx⟩ := hx.nested
  obtain ⟨js, hjs, hy⟩ := hy.alone
  refine rereads_of_tight (fun nested => ?_) fun nested => hx.index hy
  show Stands style r
    (expression true x ++ mark .openBracket :: expression false y ++ [mark .closeBracket]) _
  rw [List.append_assoc]
  exact his.append
    ((tells_mark rfl (by decide)).append (hjs.tells.within.append (tells_closing rfl)))

theorem rereads_member (ht : t.isPunctuation .colonColon = false) (hx : Rereads style r x)
    (hm : Named m) : Rereads style r (.member t x m) := by
  obtain ⟨is, his, hx⟩ := hx.nested
  have hheaders : ∀ nested, (Headers.expression nested · (.member t x m)) =
      (Headers.expression true · x) := by
    intro nested
    funext d
    rw [Headers.expression, ht, Bool.false_or]
  refine rereads_of_tight (fun nested => ?_) fun nested => hheaders nested ▸ hx.member ht
  show Stands style r (if t.isPunctuation .colonColon then _ else _) _
  rw [if_neg (by simp [ht])]
  exact his.append (tells_member hm)

theorem rereads_ownMember (ht : t.isPunctuation .colonColon = true) (hn : n.isSelf = true)
    (hm : Named m) : Rereads style r (.member t (.name n) m) := by
  refine rereads_of_tight (fun nested => ?_) fun nested => tight_ownMember ht hn
  show Stands style r (if t.isPunctuation .colonColon then _ else _) _
  rw [if_pos ht]
  exact ⟨tells_ownMember hm, starts_word rfl (by simp [marked])⟩

theorem rereads_assign (hassign : x.isAssignable = true) (hx : Rereads style r x)
    (hy : Rereads style r y) : Rereads style r (.assign t x y) := by
  obtain ⟨is, his, hx⟩ := hx.nested
  obtain ⟨js, hjs, hy⟩ := hy.alone
  have hboth := his.append ((tells_operator .assign).append hjs.tells)
  exact ⟨⟨_, stands_group hboth.tells.within, (hx.assign hassign hy).group⟩,
    _, hboth, hx.assign hassign hy⟩

end Canonical

end Clipper
