import Clipper.Proofs.Rendering.Signs

/-!
The canonical form of each node of a tree, put together from its parts: wherever an expression or a
statement may begin, two styles write the same tokens for it.
-/

namespace Clipper

namespace Canonical

open Layout Lexeme

variable {a b : Style} {t : Token} {x y z : Expr} {xs : List Expr} {n : Name} {bl : Block}

/-- The name is written as one word. -/
def Named (n : Name) : Prop := Spells .identifier n.text.toList

theorem Named.moves (h : Named n) : Moves a b .free .behind [.text n.text] := moves_text h rfl

/-- Two styles write the same tokens for an expression. -/
def Laid (a b : Style) (x : Expr) : Prop :=
  ∀ nested, Moves a b .free .behind (expression nested x)

/-- A closing bracket. -/
def closes (p : Punctuation) : Bool :=
  p == .closeParen || p == .closeBracket || p == .closeBrace

theorem moves_closing {p : Punctuation} (h : closes p = true) :
    Moves a b .behind .behind [mark p] := by
  have hp : isColon p = false ∧ p ≠ .openBrace := by
    revert h
    cases p <;> decide
  exact moves_close hp.1 hp.2

/-- Some expressions, or none, between brackets. -/
def Enclosed (a b : Style) (xs : List Expr) : Prop :=
  ∀ p, closes p = true → Moves a b .within .behind (expressions xs ++ [mark p])

theorem enclosed_nil : Enclosed a b [] := by
  intro p hp
  exact (moves_closing hp).inside

theorem enclosed_of_moves (h : Moves a b .free .behind (expressions xs)) : Enclosed a b xs :=
  fun _ hp => h.within.append (moves_closing hp)

theorem moves_comma : Moves a b .behind .free [mark .comma, space] :=
  (moves_mark rfl (by decide)).append moves_space.inside

theorem moves_expressions (hx : Laid a b x) (hxs : Moves a b .free .behind (expressions xs))
    (hne : xs ≠ []) : Moves a b .free .behind (expressions (x :: xs)) := by
  cases xs with
  | nil => exact absurd rfl hne
  | cons y ys => exact (hx false).append (moves_comma.append hxs)

/-! ### Operands -/

/-- A number or a date. -/
theorem laid_text {k : TokenKind} (hx : ∀ nested, expression nested x = [.text t.literal])
    (h : Spells k t.literal.toList) (hsign : k.isSign = false) : Laid a b x := by
  intro nested
  rw [hx]
  exact moves_text h hsign

theorem laid_string {d : Char} {body : String} (hd : isDelimiter d = true)
    (hbody : Body d body.toList) : Laid a b (.string t d body) := by
  intro nested
  exact moves_string hd hbody

theorem laid_boolean (v : Bool) : Laid a b (.boolean t v) := by
  intro nested
  exact moves_keyword _

theorem laid_nil : Laid a b (.nil t) := by
  intro nested
  exact moves_keyword _

/-- The receiver is written as a reserved word, and any other name as it stands. -/
theorem laid_name (h : n.token.isKeyword .kwSelf = false → Named n) : Laid a b (.name n) := by
  intro nested
  show Moves a b .free .behind [name n]
  rw [name]
  cases hself : n.token.isKeyword .kwSelf with
  | true => exact moves_keyword _
  | false => exact (h hself).moves

theorem laid_array (h : Enclosed a b xs) : Laid a b (.array t xs) := by
  intro nested
  exact (moves_open rfl).cons (h _ rfl)

theorem laid_unary {op : UnaryOp} (hx : Laid a b x) : Laid a b (.unary t op x) := by
  intro nested
  exact ((moves_open rfl).cons ((moves_unary op).cons (hx true))).append (moves_closing rfl)

theorem laid_ownMember (ht : t.isPunctuation .colonColon = true) (hn : Named n) :
    Laid a b (.member t x n) := by
  intro nested
  show Moves a b .free .behind (if t.isPunctuation .colonColon then _ else _)
  rw [if_pos ht]
  exact moves_ownMember hn

/-! ### Links -/

theorem laid_binary {op : BinaryOp} (hx : Laid a b x) (hy : Laid a b y) :
    Laid a b (.binary t op x y) := by
  intro nested
  have hright := (moves_operator op.operator).append (hy true)
  exact (((moves_open rfl).cons (hx true).within).append hright).append (moves_closing rfl)

theorem laid_call (hx : Laid a b x) (hxs : Enclosed a b xs) : Laid a b (.call t x xs) := by
  intro nested
  show Moves a b .free .behind
    (expression true x ++ mark .openParen :: expressions xs ++ [mark .closeParen])
  rw [List.append_assoc]
  exact (hx true).append ((moves_mark rfl (by decide)).append (hxs _ rfl))

theorem laid_index (hx : Laid a b x) (hy : Laid a b y) : Laid a b (.index t x y) := by
  intro nested
  have hbracket : Moves a b .behind .within [mark .openBracket] := moves_mark rfl (by decide)
  exact ((hx true).append (hbracket.append (hy false).within)).append (moves_closing rfl)

theorem laid_member (ht : t.isPunctuation .colonColon = false) (hx : Laid a b x) (hn : Named n) :
    Laid a b (.member t x n) := by
  intro nested
  show Moves a b .free .behind (if t.isPunctuation .colonColon then _ else _)
  rw [if_neg (by simp [ht])]
  exact (hx true).append (moves_member hn)

theorem laid_assign (hx : Laid a b x) (hy : Laid a b y) : Laid a b (.assign t x y) := by
  have hplain : Moves a b .free .behind
      (expression true x ++ space :: operator .assign :: space :: expression false y) :=
    (hx true).append ((moves_operator .assign).append (hy false))
  intro nested
  show Moves a b .free .behind (grouped nested _)
  rw [grouped]
  cases nested with
  | false => exact hplain
  | true => exact ((moves_open rfl).cons hplain.within).append (moves_closing rfl)

/-! ### Conditionals and loops -/

theorem moves_word_space (k : Keyword) : Moves a b .free .free [.keyword k, space] :=
  (moves_keyword k).append moves_space

/-- A line, and the statements that are indented behind it. -/
theorem moves_body (h : Moves a b .fresh .fresh (block bl)) :
    Moves a b .behind .fresh (.newline :: block bl) := moves_newline.cons h

theorem moves_guarded {opener : Keyword} (hx : Laid a b x)
    (hbl : Moves a b .fresh .fresh (block bl)) :
    Moves a b .free .fresh (guarded opener ⟨t, x, bl⟩) := by
  exact ((moves_word_space opener).append (hx false)).append (moves_body hbl)

theorem moves_elseIfs {g : Guarded} {gs : List Guarded}
    (hg : Moves a b .free .fresh (guarded .kwElseIf g))
    (hgs : Moves a b .fresh .fresh (elseIfs gs)) : Moves a b .fresh .fresh (elseIfs (g :: gs)) := by
  exact hg.fresh.append hgs

theorem moves_elseBlock (h : Moves a b .fresh .fresh (block bl)) :
    Moves a b .fresh .fresh (elseBlock (some bl)) := by
  exact (moves_keyword .kwElse).fresh.append (moves_body h)

theorem laid_branch {g : Guarded} {gs : List Guarded} {other : Option Block} {k : Option Token}
    (hg : Moves a b .free .fresh (guarded .kwIf g)) (hgs : Moves a b .fresh .fresh (elseIfs gs))
    (hother : Moves a b .fresh .fresh (elseBlock other)) : Laid a b (.branch g gs other k) := by
  intro nested
  exact ((hg.append hgs).append hother).append (moves_keyword .kwEndIf).fresh

theorem laid_whileLoop {g : Guarded} {k : Option Token}
    (hg : Moves a b .free .fresh (guarded .kwWhile g)) : Laid a b (.whileLoop g k) := by
  intro nested
  exact hg.append (moves_keyword .kwEndDo).fresh

theorem moves_stepClause (hx : Laid a b x) : Moves a b .behind .behind (stepClause (some x)) := by
  exact moves_space.cons ((moves_word_space .kwStep).append (hx false))

theorem laid_forLoop {step : Option Expr} {k : Option Token} (hn : Named n) (hx : Laid a b x)
    (hy : Laid a b y) (hstep : Moves a b .behind .behind (stepClause step))
    (hbl : Moves a b .fresh .fresh (block bl)) : Laid a b (.forLoop t n x y step bl k) := by
  intro nested
  have hcounter : Moves a b .free .behind
      (.keyword .kwFor :: space :: .text n.text :: space :: operator .assign :: space ::
        expression false x) :=
    (moves_word_space .kwFor).append (hn.moves.append ((moves_operator .assign).append (hx false)))
  have hlimit : Moves a b .behind .behind
      (space :: .keyword .kwTo :: space :: expression false y) :=
    moves_space.cons ((moves_word_space .kwTo).append (hy false))
  exact (((hcounter.append hlimit).append hstep).append (moves_body hbl)).append
    (moves_keyword .kwNext).fresh

/-! ### Statements -/

theorem moves_stmts {ss : List Stmt} (h : ∀ s ∈ ss, Moves a b .free .behind (stmt s)) :
    Moves a b .fresh .fresh (stmts ss) := by
  induction ss with
  | nil =>
      exact .refl .fresh
  | cons s ss ih =>
      rw [List.forall_mem_cons] at h
      exact h.1.fresh.append (moves_endLine.cons (ih h.2))

theorem moves_block {ss : List Stmt} (h : ∀ s ∈ ss, Moves a b .free .behind (stmt s)) :
    Moves a b .fresh .fresh (block ⟨t, ss⟩) := by
  exact moves_indented (moves_stmts h)

theorem moves_initializer (hx : Laid a b x) :
    Moves a b .behind .behind (initializer (some x)) := by
  exact (moves_operator .assign).append (hx false)

theorem moves_variable {st : Storage} {value : Option Expr} (hn : Named n)
    (h : Moves a b .behind .behind (initializer value)) :
    Moves a b .free .behind (stmt (.variable t st n value)) := by
  exact (moves_word_space (storage st)).append (hn.moves.append h)

theorem moves_return : Moves a b .free .behind (stmt (.ret t none)) := by
  exact moves_keyword .kwReturn

theorem moves_returned (hx : Laid a b x) : Moves a b .free .behind (stmt (.ret t (some x))) := by
  exact (moves_word_space .kwReturn).append (hx false)

theorem moves_value (hx : Laid a b x) : Moves a b .free .behind (stmt (.expression t x)) := by
  exact hx false

/-! ### Declarations -/

theorem moves_parameterNames {ns : List Name} (h : ∀ m ∈ n :: ns, Named m) :
    Moves a b .free .behind (parameterNames (n :: ns)) := by
  have hcomma : Moves a b .behind .free [.text ", "] := by
    have hwritten : ∀ (style : Style) (level : Nat) (rest : List Piece),
        written style level false (.text ", " :: rest) =
          written style level false (mark .comma :: space :: rest) := by
      intro style level rest
      rw [written_spelled (spelled_text (by decide)), mark,
        written_spelled (spelled_text (by decide)), written_space]
      simp [Punctuation.canonical]
    intro level rest hrest
    have := moves_comma (a := a) (b := b) level rest hrest
    simp only [Stance.Allows, Twins, List.cons_append, List.nil_append, hwritten] at this ⊢
    exact this
  induction ns generalizing n with
  | nil => exact (h n List.mem_cons_self).moves
  | cons m ns ih =>
      rw [List.forall_mem_cons] at h
      exact h.1.moves.append (hcomma.append (ih h.2))

theorem moves_parameters {ns : List Name} (h : ∀ n ∈ ns, Named n) :
    Moves a b .behind .behind (parameters ns) := by
  have hopen : Moves a b .behind .within [mark .openParen] := moves_mark rfl (by decide)
  cases ns with
  | nil => exact hopen.append (moves_closing rfl).inside
  | cons n ns => exact (hopen.append (moves_parameterNames h).within).append (moves_closing rfl)

theorem moves_routine {opener closer : Keyword} {ns : List Name} {k : Option Token} (hn : Named n)
    (hns : ∀ n ∈ ns, Named n) (hbl : Moves a b .fresh .fresh (block bl)) :
    Moves a b .free .behind (routine opener closer ⟨t, n, ns, bl, k⟩) := by
  have hhead : Moves a b .free .behind
      (.keyword opener :: space :: .text n.text :: parameters ns) :=
    (moves_word_space opener).append (hn.moves.append (moves_parameters hns))
  exact (hhead.append (moves_body hbl)).append (moves_keyword closer).fresh

theorem moves_function {r : Routine}
    (h : Moves a b .free .behind (routine .kwFunction .kwEndFunction r)) (isStatic : Bool) :
    Moves a b .free .behind (stmt (.function isStatic r)) := by
  cases isStatic with
  | false => exact h
  | true => exact (moves_word_space .kwStatic).append h

theorem moves_attributeLine {x : Attribute} (h : Named x.name) :
    Moves a b .fresh .fresh (attributeLine x) :=
  ((moves_word_space .kwData).append (h.moves.append moves_newline)).fresh

theorem moves_attributes {xs : List Attribute} (h : ∀ x ∈ xs, Named x.name) :
    Moves a b .fresh .fresh (xs.flatMap attributeLine) := by
  induction xs with
  | nil => exact .refl .fresh
  | cons x xs ih =>
      rw [List.forall_mem_cons] at h
      rw [List.flatMap_cons]
      exact (moves_attributeLine h.1).append (ih h.2)

theorem moves_methods {rs : List Routine}
    (h : ∀ r ∈ rs, Moves a b .free .behind (routine .kwMethod .kwEndMethod r)) :
    Moves a b .fresh .fresh (methods rs) := by
  induction rs with
  | nil => exact .refl .fresh
  | cons r rs ih =>
      rw [List.forall_mem_cons] at h
      exact h.1.fresh.append (moves_newline.cons (ih h.2))

theorem moves_class {parent : Option Name} {xs : List Attribute} {rs : List Routine}
    {k : Option Token} (hn : Named n) (hparent : ∀ p ∈ parent, Named p)
    (hxs : ∀ x ∈ xs, Named x.name)
    (hrs : ∀ r ∈ rs, Moves a b .free .behind (routine .kwMethod .kwEndMethod r)) :
    Moves a b .free .behind (stmt (.classDef ⟨t, n, parent, xs, rs, k⟩)) := by
  have hfrom : Moves a b .behind .behind
      (parent.elim [] fun p => [space, .keyword .kwFrom, space, .text p.text]) := by
    cases parent with
    | none => exact .refl .behind
    | some p => exact moves_space.cons ((moves_word_space .kwFrom).append (hparent p rfl).moves)
  have hmembers : Moves a b .fresh .fresh
      (.indent :: (xs.flatMap attributeLine ++ methods rs) ++ [.dedent]) :=
    moves_indented ((moves_attributes hxs).append (moves_methods hrs))
  have hall := (((moves_word_space .kwClass).append (hn.moves.append hfrom)).append
    (moves_newline.cons hmembers)).append (moves_keyword .kwEndClass).fresh
  show Moves a b .free .behind (classDefinition ⟨t, n, parent, xs, rs, k⟩)
  simpa [classDefinition] using hall

/-! ### A file -/

/-- The statements of a file, each behind the line of another. -/
theorem moves_further {ss : List Stmt} (h : ∀ s ∈ ss, Moves a b .free .behind (stmt s)) (s : Stmt) :
    Moves a b .behind .fresh (.endLine :: topLevel (some s) ss) := by
  induction ss generalizing s with
  | nil => exact moves_endLine
  | cons s' ss ih =>
      rw [List.forall_mem_cons] at h
      have hrest := h.1.fresh.append (ih h.2 s')
      rw [topLevel]
      cases (some s).any fun p => p.isDeclaration || s'.isDeclaration with
      | false => exact moves_endLine.cons hrest
      | true => exact moves_gap.append hrest

theorem moves_topLevel {ss : List Stmt} (h : ∀ s ∈ ss, Moves a b .free .behind (stmt s)) :
    Moves a b .fresh .fresh (topLevel none ss) := by
  cases ss with
  | nil => exact .refl .fresh
  | cons s ss =>
      rw [List.forall_mem_cons] at h
      exact h.1.fresh.append (moves_further h.2 s)

end Canonical

end Clipper
