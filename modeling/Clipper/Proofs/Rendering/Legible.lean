import Clipper.Proofs.Likeness.Correspondence
import Clipper.Proofs.Rendering.Nodes

/-!
Trees that a text can have. Nothing in them is missing, their names and literals are spelled as
such, and nothing is declared inside a routine. Two styles write the same tokens for such a tree.
-/

namespace Clipper

open Lexeme Layout Canonical Grammar

theorem Name.isSelf_implied (t : Token) :
    (⟨.implied (.keyword .kwSelf) "Self" t⟩ : Name).isSelf = true := by
  have hword : Keyword.ofWord? "Self" = some .kwSelf := by decide
  simp [Name.isSelf, Name.text, Token.implied, hword]

/-- A text can have the part, inside a routine or outside. -/
inductive Part.Legible : Bool → Part → Prop
  -- Expressions
  | name : n.token.isKeyword .kwSelf = false → Named n → Legible r (.expression (.name n))
  | receiver : n.token.isKeyword .kwSelf = true → n.isSelf = true →
      Legible r (.expression (.name n))
  | integer : Spells .integer t.literal.toList →
      Binary64.ofDigits t.literal.toList < integerBound →
      Legible r (.expression (.integer t (Binary64.ofDigits t.literal.toList)))
  | float : Spells .float t.literal.toList → Binary64.ofDecimal? t.literal.toList = some bits →
      Legible r (.expression (.float t bits))
  | string {body : String} : isDelimiter d = true → Body d body.toList →
      Legible r (.expression (.string t d body))
  | date : Spells .date t.literal.toList → Legible r (.expression (.date t))
  | boolean : Legible r (.expression (.boolean t value))
  | nil : Legible r (.expression (.nil t))
  | array : (∀ x ∈ xs, Legible r (.expression x)) → Legible r (.expression (.array t xs))
  | unary : Legible r (.expression x) → Legible r (.expression (.unary t op x))
  | binary : Legible r (.expression x) → Legible r (.expression y) →
      Legible r (.expression (.binary t op x y))
  | call : Legible r (.expression x) → (∀ y ∈ xs, Legible r (.expression y)) →
      Legible r (.expression (.call t x xs))
  | index : Legible r (.expression x) → Legible r (.expression y) →
      Legible r (.expression (.index t x y))
  | member : t.isPunctuation .colonColon = false → Legible r (.expression x) → Named m →
      Legible r (.expression (.member t x m))
  | ownMember : t.isPunctuation .colonColon = true → n.isSelf = true → Named m →
      Legible r (.expression (.member t (.name n) m))
  | assign : x.isAssignable = true → Legible r (.expression x) → Legible r (.expression y) →
      Legible r (.expression (.assign t x y))
  | branch : Legible r (.guarded g) → (∀ g' ∈ gs, Legible r (.guarded g')) →
      (∀ b ∈ other, Legible r (.block b)) → Legible r (.expression (.branch g gs other k))
  | whileLoop : Legible r (.guarded g) → Legible r (.expression (.whileLoop g k))
  | forLoop : Named n → Legible r (.expression x) → Legible r (.expression y) →
      (∀ z ∈ step, Legible r (.expression z)) → Legible r (.block b) →
      Legible r (.expression (.forLoop t n x y step b k))
  -- Blocks
  | guarded : Legible r (.expression x) → Legible r (.block b) → Legible r (.guarded ⟨t, x, b⟩)
  | block : (∀ s ∈ ss, Legible r (.statement s)) → Legible r (.block ⟨t, ss⟩)
  -- Statements
  | function : Legible true (.routine x) → Legible false (.statement (.function isStatic x))
  | classDef : Named n → (∀ p ∈ parent, Named p) → (∀ a ∈ as, Named a.name) →
      (∀ x ∈ rs, Legible true (.routine x)) →
      Legible false (.statement (.classDef ⟨t, n, parent, as, rs, k⟩))
  | variable : Named n → (∀ x ∈ value, Legible r (.expression x)) →
      Legible r (.statement (.variable t st n value))
  | ret : (∀ x ∈ value, Legible r (.expression x)) → Legible r (.statement (.ret t value))
  | value : Legible r (.expression x) → Legible r (.statement (.expression t x))
  -- Declarations
  | routine : Named n → (∀ m ∈ ns, Named m) → Legible true (.block b) →
      Legible true (.routine ⟨t, n, ns, b, k⟩)

namespace Canonical

/-- Two styles write the same tokens for a part. -/
def MovesAlike (a b : Style) : Part → Prop
  | .expression x => Laid a b x
  | .guarded g => ∀ opener, Moves a b .free .fresh (guarded opener g)
  | .block bl => Moves a b .fresh .fresh (block bl)
  | .statement s => Moves a b .free .behind (stmt s)
  | .routine x => ∀ opener closer, Moves a b .free .behind (routine opener closer x)
  | _ => True

section Parts

variable {a b : Style} {t : Token} {n : Name} {xs : List Expr} {x : Option Expr}

theorem enclosed_of_laid (h : ∀ x ∈ xs, Laid a b x) : Enclosed a b xs := by
  by_cases hne : xs = []
  · exact hne ▸ enclosed_nil
  refine enclosed_of_moves ?_
  induction xs with
  | nil => exact absurd rfl hne
  | cons x xs ih =>
      rw [List.forall_mem_cons] at h
      by_cases hxs : xs = []
      · exact hxs ▸ h.1 false
      · exact moves_expressions h.1 (ih h.2 hxs) hxs

theorem moves_branches {gs : List Guarded}
    (h : ∀ g ∈ gs, ∀ opener, Moves a b .free .fresh (guarded opener g)) :
    Moves a b .fresh .fresh (elseIfs gs) := by
  induction gs with
  | nil => exact .refl .fresh
  | cons g gs ih =>
      rw [List.forall_mem_cons] at h
      exact moves_elseIfs (h.1 .kwElseIf) (ih h.2)

theorem moves_alternative {other : Option Block}
    (h : ∀ bl ∈ other, Moves a b .fresh .fresh (block bl)) :
    Moves a b .fresh .fresh (elseBlock other) := by
  cases other with
  | none => exact .refl .fresh
  | some bl => exact moves_elseBlock (h bl rfl)

theorem moves_step (h : ∀ y ∈ x, Laid a b y) : Moves a b .behind .behind (stepClause x) := by
  cases x with
  | none => exact .refl .behind
  | some y => exact moves_stepClause (h y rfl)

theorem moves_declared {storage : Storage} (hn : Named n) (h : ∀ y ∈ x, Laid a b y) :
    Moves a b .free .behind (stmt (.variable t storage n x)) := by
  cases x with
  | none => exact moves_variable hn (.refl .behind)
  | some y => exact moves_variable hn (moves_initializer (h y rfl))

theorem moves_ret (h : ∀ y ∈ x, Laid a b y) : Moves a b .free .behind (stmt (.ret t x)) := by
  cases x with
  | none => exact moves_return
  | some y => exact moves_returned (h y rfl)

end Parts

theorem movesAlike {a b : Style} {r : Bool} {x : Part} (h : x.Legible r) : MovesAlike a b x := by
  induction h with
  | name _ hn => exact laid_name fun _ => hn
  | receiver hself _ => exact laid_name fun hother => by simp [hself] at hother
  | integer ht _ | float ht _ | date ht => exact laid_text (fun _ => rfl) ht rfl
  | string hd hbody => exact laid_string hd hbody
  | boolean => exact laid_boolean _
  | nil => exact laid_nil
  | array _ ih => exact laid_array (enclosed_of_laid ih)
  | unary _ ih => exact laid_unary ih
  | binary _ _ ihx ihy => exact laid_binary ihx ihy
  | call _ _ ihx ihxs => exact laid_call ihx (enclosed_of_laid ihxs)
  | index _ _ ihx ihy => exact laid_index ihx ihy
  | member ht _ hm ih => exact laid_member ht ih hm
  | ownMember ht _ hm => exact laid_ownMember ht hm
  | assign _ _ _ ihx ihy => exact laid_assign ihx ihy
  | branch _ _ _ ihg ihgs ihother =>
      exact laid_branch (ihg .kwIf) (moves_branches ihgs) (moves_alternative ihother)
  | whileLoop _ ih => exact laid_whileLoop (ih .kwWhile)
  | forLoop hn _ _ _ _ ihx ihy ihstep ihb =>
      exact laid_forLoop hn ihx ihy (moves_step ihstep) ihb
  | guarded _ _ ihx ihb => exact fun _ => moves_guarded ihx ihb
  | block _ ih => exact moves_block ih
  | function _ ih => exact moves_function (ih _ _) _
  | classDef hn hparent has _ ih => exact moves_class hn hparent has fun x hx => ih x hx _ _
  | «variable» hn _ ih => exact moves_declared hn ih
  | ret _ ih => exact moves_ret ih
  | value _ ih => exact moves_value ih
  | routine hn hns _ ih => exact fun _ _ => moves_routine hn hns ih

end Canonical

end Clipper
