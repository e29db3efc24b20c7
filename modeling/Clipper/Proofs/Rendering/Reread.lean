import Clipper.Proofs.Rendering.Expressions

/-!
The canonical form of an expression, read again on its own. There is no block in it, so that every
tree that is written is read as it was.
-/

namespace Clipper

open Lexeme Layout Canonical Grammar

namespace Expr

/-- The same tree over other tokens. The receiver may be in another case. -/
inductive SameTree : Expr → Expr → Prop
  | name : n.text = m.text ∨ n.isSelf = true ∧ m.isSelf = true → SameTree (.name n) (.name m)
  | integer : SameTree (.integer t value) (.integer u value)
  | float : SameTree (.float t bits) (.float u bits)
  | string {t u : Token} {d : Char} {body : String} :
      SameTree (.string t d body) (.string u d body)
  | date : t.literal = u.literal → SameTree (.date t) (.date u)
  | boolean : SameTree (.boolean t value) (.boolean u value)
  | nil : SameTree (.nil t) (.nil u)
  | array : List.Forall₂ SameTree xs ys → SameTree (.array t xs) (.array u ys)
  | unary : SameTree x y → SameTree (.unary t op x) (.unary u op y)
  | binary : SameTree x y → SameTree x' y' → SameTree (.binary t op x x') (.binary u op y y')
  | call : SameTree x y → List.Forall₂ SameTree xs ys → SameTree (.call t x xs) (.call u y ys)
  | index : SameTree x y → SameTree x' y' → SameTree (.index t x x') (.index u y y')
  | member : SameTree x y → n.text = m.text → SameTree (.member t x n) (.member u y m)
  | assign : SameTree x y → SameTree x' y' → SameTree (.assign t x x') (.assign u y y')

/-- Nothing in the tree is missing and nothing in it is a block, its names and its literals are
such as a text has them, and what it assigns to can be assigned to. -/
inductive Renderable : Expr → Prop
  | name {n : Name} : n.token.isKeyword .kwSelf = false → Named n → Renderable (.name n)
  | receiver {n : Name} : n.token.isKeyword .kwSelf = true → n.isSelf = true →
      Renderable (.name n)
  | integer {t : Token} : Spells .integer t.literal.toList →
      Binary64.ofDigits t.literal.toList < integerBound →
      Renderable (.integer t (Binary64.ofDigits t.literal.toList))
  | float {t : Token} {bits : UInt64} : Spells .float t.literal.toList →
      Binary64.ofDecimal? t.literal.toList = some bits → Renderable (.float t bits)
  | string {t : Token} {d : Char} {body : String} : isDelimiter d = true → Body d body.toList →
      Renderable (.string t d body)
  | date {t : Token} : Spells .date t.literal.toList → Renderable (.date t)
  | boolean (t : Token) (value : Bool) : Renderable (.boolean t value)
  | nil (t : Token) : Renderable (.nil t)
  | array (t : Token) {xs : List Expr} : (∀ x ∈ xs, Renderable x) → Renderable (.array t xs)
  | unary (t : Token) (op : UnaryOp) {x : Expr} : Renderable x → Renderable (.unary t op x)
  | binary (t : Token) (op : BinaryOp) {x y : Expr} : Renderable x → Renderable y →
      Renderable (.binary t op x y)
  | call (t : Token) {x : Expr} {xs : List Expr} : Renderable x → (∀ y ∈ xs, Renderable y) →
      Renderable (.call t x xs)
  | index (t : Token) {x y : Expr} : Renderable x → Renderable y → Renderable (.index t x y)
  | member {t : Token} {x : Expr} {m : Name} : t.isPunctuation .colonColon = false →
      Renderable x → Named m → Renderable (.member t x m)
  | ownMember {t : Token} {n m : Name} : t.isPunctuation .colonColon = true → n.isSelf = true →
      Named m → Renderable (.member t (.name n) m)
  | assign (t : Token) {x y : Expr} : x.isAssignable = true → Renderable x → Renderable y →
      Renderable (.assign t x y)

namespace Renderable

variable {x y : Expr} {xs ys : List Expr} {style : Style} {r : Bool}

/-- Where there is no block there is no header. -/
theorem headersEnd (h : x.Renderable) : ∀ nested delimited,
    Headers.expression nested delimited x = true := by
  have hlist : ∀ {xs : List Expr}, (∀ x ∈ xs, ∀ nested delimited,
      Headers.expression nested delimited x = true) → Headers.expressions xs = true := by
    intro xs hxs
    induction xs with
    | nil => rfl
    | cons x xs ih =>
        rw [List.forall_mem_cons] at hxs
        rw [Headers.expressions, hxs.1, ih hxs.2, Bool.and_self]
  induction h with
  | name | receiver | integer | float | string | date | boolean | nil =>
      intro nested delimited
      rfl
  | array _ _ ih =>
      intro nested delimited
      exact hlist ih
  | unary _ _ _ ih =>
      intro nested delimited
      exact ih _ _
  | binary _ _ _ _ ihx ihy | index _ _ _ ihx ihy | assign _ _ _ _ ihx ihy =>
      intro nested delimited
      rw [Headers.expression, ihx, ihy, Bool.and_self]
  | call _ _ _ ihx ihxs =>
      intro nested delimited
      rw [Headers.expression, ihx, hlist ihxs, Bool.and_self]
  | member ht _ _ ih =>
      intro nested delimited
      rw [Headers.expression, ih, Bool.or_true]
  | ownMember ht _ _ =>
      intro nested delimited
      rw [Headers.expression, ht, Bool.true_or]

theorem sameTrees (h : ∀ x ∈ xs, ∀ {y}, Part.Same (.expression x) (.expression y) → x.SameTree y)
    (hsame : Part.Same (.expressions xs) (.expressions ys)) : List.Forall₂ SameTree xs ys := by
  induction xs generalizing ys with
  | nil =>
      cases hsame
      exact .nil
  | cons x xs ih =>
      rw [List.forall_mem_cons] at h
      cases hsame with
      | expressions hx hxs => exact .cons (h.1 hx) (ih h.2 hxs)

theorem sameTree (h : x.Renderable) (hsame : Part.Same (.expression x) (.expression y)) :
    x.SameTree y := by
  induction h generalizing y with
  | name hself _ =>
      cases hsame with
      | name _ _ htext => exact .name (.inl htext)
      | receiver hreceiver _ _ _ => simp [hself] at hreceiver
  | receiver hself hn =>
      cases hsame with
      | name hother _ _ => simp [hself] at hother
      | receiver _ _ _ hm => exact .name (.inr ⟨hn, hm⟩)
  | integer =>
      cases hsame
      exact .integer
  | float =>
      cases hsame
      exact .float
  | string =>
      cases hsame
      exact .string
  | date =>
      cases hsame with
      | date htext => exact .date htext
  | boolean =>
      cases hsame
      exact .boolean
  | nil =>
      cases hsame
      exact .nil
  | array _ _ ih =>
      cases hsame with
      | array hxs => exact .array (sameTrees ih hxs)
  | unary _ _ _ ih =>
      cases hsame with
      | unary hx => exact .unary (ih hx)
  | binary _ _ _ _ ihx ihy =>
      cases hsame with
      | binary hx hy => exact .binary (ihx hx) (ihy hy)
  | call _ _ _ ihx ihxs =>
      cases hsame with
      | call hx hxs => exact .call (ihx hx) (sameTrees ihxs hxs)
  | index _ _ _ ihx ihy =>
      cases hsame with
      | index hx hy => exact .index (ihx hx) (ihy hy)
  | member ht _ _ ih =>
      cases hsame with
      | member _ _ hx htext => exact .member (ih hx) htext
      | ownMember hown _ _ _ _ => simp [ht] at hown
  | ownMember ht hn _ =>
      cases hsame with
      | member hplain _ _ _ => simp [ht] at hplain
      | ownMember _ _ _ hm htext => exact .member (.name (.inr ⟨hn, hm⟩)) htext
  | assign _ _ _ _ ihx ihy =>
      cases hsame with
      | assign hx hy => exact .assign (ihx hx) (ihy hy)

/-- Every tree that can be rendered is read again. -/
theorem rereads (h : x.Renderable) : Rereads style r x := by
  induction h with
  | name hself hn => exact rereads_name hself hn
  | receiver hself hn => exact rereads_receiver hself hn
  | integer ht hbound => exact rereads_integer ht hbound
  | float ht hbits => exact rereads_float ht hbits
  | string hd hbody => exact rereads_string hd hbody
  | date ht => exact rereads_date ht
  | boolean _ value => exact rereads_boolean value
  | nil _ => exact rereads_nil
  | array _ _ ih => exact rereads_array ih
  | unary _ op _ ih => exact rereads_unary op ih
  | binary _ op _ _ ihx ihy => exact rereads_binary op ihx ihy
  | call _ _ _ ihx ihxs => exact rereads_call ihx ihxs
  | index _ _ _ ihx ihy => exact rereads_index ihx ihy
  | member ht _ hm ih => exact rereads_member ht ih hm
  | ownMember ht hn hm => exact rereads_ownMember ht hn hm
  | assign _ hassign _ _ ihx ihy => exact rereads_assign hassign ihx ihy

end Renderable

end Expr

/-! ### Texts -/

/-- Rendered in any style and read again, an expression is the same tree, unless it is too deep. -/
theorem Parsed.expression_render {x : Expr} (h : x.Renderable) (style : Style) (file : String) :
    (Parsed.ofSource (x.render style) file).TooDeep ∨
      (Parsed.ofSource (x.render style) file).diagnostics = [] ∧
        ∃ t y, (Parsed.ofSource (x.render style) file).program.statements = [.expression t y] ∧
          x.SameTree y := by
  have hrereads : Rereads style false x := h.rereads
  obtain ⟨is, his, hloose⟩ := hrereads.alone
  have hclosed := TokenStream.closed_ofText file (x.render style)
  obtain ⟨hlegal, l, hl⟩ :=
    his.tells.worded.tokens file (.ofText (x.render style).toList) rfl
  obtain ⟨y, hy, hread⟩ := hloose hl
  have hlast := hclosed.last_isEnd
  have hsuits : Context.file.Suits false (Headers.expression false · x) :=
    ⟨rfl, by simp [Context.file], h.headersEnd _ _⟩
  obtain ⟨m, hm⟩ :=
    hread .file 1 [(TokenStream.ofText file (x.render style)).last] hsuits (Spot.over_of_end hlast)
  cases hbody : (TokenStream.ofText file (x.render style)).body with
  | nil =>
      -- Nothing is no expression.
      have hempty : (TokenStream.ofCursor file (.ofText (x.render style).toList)).body = [] := hbody
      rw [hempty, List.nil_append] at hm
      obtain ⟨st, hst⟩ := hm.begins
      have hkind : (TokenStream.ofText file (x.render style)).last.kind = .endOfInput := by
        simpa [Token.isEnd] using hlast
      rw [← Starter.begins_iff, hkind] at hst
      cases hst
  | cons u us =>
      refine (parsed_of_expression hclosed hlegal hbody hm).imp id fun hread => ?_
      obtain ⟨hfaults, hstatements⟩ := hread
      exact ⟨by rw [Parsed.diagnostics, Parsed.ofSource, hfaults]; rfl, u, y, hstatements,
        h.sameTree hy⟩

/-- A sum that is assigned to a member of the receiver. -/
theorem Parsed.expression_render_sum :
    ∃ x : Expr, x.Renderable ∧ x.render {} = "::total := (a + 1)" ∧
      ((Parsed.ofSource (x.render {}) "t.prw").TooDeep ∨
        (Parsed.ofSource (x.render {}) "t.prw").diagnostics = [] ∧
          ∃ t y, (Parsed.ofSource (x.render {}) "t.prw").program.statements =
            [.expression t y] ∧ x.SameTree y) := by
  -- The words are taken from a text that has them.
  have hwords : (TokenStream.ofText "t.prw" "self total a 1").body.map Token.word =
      [(.keyword .kwSelf, "self"), (.identifier, "total"), (.identifier, "a"),
        (.integer, "1")] := by
    decide +kernel
  have hspelled := TokenStream.plain_ofText "t.prw" "self total a 1"
  simp only [List.map_eq_cons_iff, List.map_eq_nil_iff, Token.word, Prod.mk.injEq] at hwords
  obtain ⟨t₁, _, hbody, ⟨-, hself⟩, t₂, _, rfl, ⟨h₂, htotal⟩, t₃, _, rfl, ⟨h₃, ha⟩, t₄, _, rfl,
    ⟨h₄, hone⟩, rfl⟩ := hwords
  rw [hbody] at hspelled
  have hspelled₂ := hspelled t₂ (by simp) (by rw [h₂]; rfl)
  have hspelled₃ := hspelled t₃ (by simp) (by rw [h₃]; rfl)
  have hspelled₄ := hspelled t₄ (by simp) (by rw [h₄]; rfl)
  rw [h₂] at hspelled₂
  rw [h₃] at hspelled₃
  rw [h₄] at hspelled₄
  have hreceiver : (⟨t₁⟩ : Name).isSelf = true := by
    simp only [Name.isSelf, Name.text, hself]
    decide
  have hname : t₃.isKeyword .kwSelf = false := by simp [Token.isKeyword, h₃]
  let sign (k : TokenKind) : Token := .implied k "" t₁
  let x : Expr := .assign (sign (.operator .assign))
    (.member (sign (.punctuation .colonColon)) (.name ⟨t₁⟩) ⟨t₂⟩)
    (.binary (sign (.operator .plus)) .add (.name ⟨t₃⟩)
      (.integer t₄ (Binary64.ofDigits t₄.literal.toList)))
  have hx : x.Renderable := .assign _ rfl (.ownMember rfl hreceiver hspelled₂)
    (.binary _ _ (.name hname hspelled₃) (.integer hspelled₄ (by rw [hone]; decide)))
  refine ⟨x, hx, ?_, Parsed.expression_render hx _ _⟩
  have hpieces : Canonical.expression false x =
      [mark .colonColon, .text "total", space, operator .assign, space, mark .openParen,
        .text "a", space, operator .plus, space, .text "1", mark .closeParen] := by
    simp [x, Canonical.expression, grouped, Canonical.name, sign, Token.implied,
      Token.isPunctuation, hname, Name.text, BinaryOp.operator, htotal, ha, hone]
  rw [Expr.render, hpieces]
  decide +kernel

end Clipper
