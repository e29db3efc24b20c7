import Clipper.Canonical
import Clipper.Proofs.Likeness.Correspondence

/-!
Trees that are the same but for their tokens. Names, literals, operators and the kinds of nodes are
kept; places, the spellings of reserved words and the closing words are not. Such trees have the
same canonical form.
-/

namespace Clipper

/-- The same part over other tokens. A closing word may be there or not. -/
inductive Part.Same : Part → Part → Prop
  -- Expressions
  | name : n.token.isKeyword .kwSelf = false → m.token.isKeyword .kwSelf = false →
      n.text = m.text → Same (.expression (.name n)) (.expression (.name m))
  | receiver : n.token.isKeyword .kwSelf = true → m.token.isKeyword .kwSelf = true →
      n.isSelf = true → m.isSelf = true → Same (.expression (.name n)) (.expression (.name m))
  | integer : t.literal = u.literal →
      Same (.expression (.integer t value)) (.expression (.integer u value))
  | float : t.literal = u.literal →
      Same (.expression (.float t bits)) (.expression (.float u bits))
  | string : Same (.expression (.string t delimiter body)) (.expression (.string u delimiter body))
  | date : t.literal = u.literal → Same (.expression (.date t)) (.expression (.date u))
  | boolean : Same (.expression (.boolean t value)) (.expression (.boolean u value))
  | nil : Same (.expression (.nil t)) (.expression (.nil u))
  | array : Same (.expressions xs) (.expressions ys) →
      Same (.expression (.array t xs)) (.expression (.array u ys))
  | unary : Same (.expression x) (.expression y) →
      Same (.expression (.unary t op x)) (.expression (.unary u op y))
  | binary : Same (.expression x) (.expression y) → Same (.expression x') (.expression y') →
      Same (.expression (.binary t op x x')) (.expression (.binary u op y y'))
  | call : Same (.expression x) (.expression y) → Same (.expressions xs) (.expressions ys) →
      Same (.expression (.call t x xs)) (.expression (.call u y ys))
  | index : Same (.expression x) (.expression y) → Same (.expression x') (.expression y') →
      Same (.expression (.index t x x')) (.expression (.index u y y'))
  | member : t.isPunctuation .colonColon = false → u.isPunctuation .colonColon = false →
      Same (.expression x) (.expression y) → n.text = m.text →
      Same (.expression (.member t x n)) (.expression (.member u y m))
  /-- The receiver is implied. -/
  | ownMember : t.isPunctuation .colonColon = true → u.isPunctuation .colonColon = true →
      n.isSelf = true → n'.isSelf = true → m.text = m'.text →
      Same (.expression (.member t (.name n) m)) (.expression (.member u (.name n') m'))
  | assign : Same (.expression x) (.expression y) → Same (.expression x') (.expression y') →
      Same (.expression (.assign t x x')) (.expression (.assign u y y'))
  | branch : Same (.guarded g) (.guarded g') → Same (.branches gs) (.branches gs') →
      Same (.blockIfAny b) (.blockIfAny b') →
      Same (.expression (.branch g gs b k)) (.expression (.branch g' gs' b' k'))
  | whileLoop : Same (.guarded g) (.guarded g') →
      Same (.expression (.whileLoop g k)) (.expression (.whileLoop g' k'))
  | forLoop : n.text = m.text → Same (.expression x) (.expression x') →
      Same (.expression y) (.expression y') → Same (.expressionIfAny z) (.expressionIfAny z') →
      Same (.block b) (.block b') →
      Same (.expression (.forLoop t n x y z b k)) (.expression (.forLoop u m x' y' z' b' k'))
  | missing : Same (.expression (.missing t)) (.expression (.missing u))
  | noExpressions : Same (.expressions []) (.expressions [])
  | expressions : Same (.expression x) (.expression y) → Same (.expressions xs) (.expressions ys) →
      Same (.expressions (x :: xs)) (.expressions (y :: ys))
  | noExpression : Same (.expressionIfAny none) (.expressionIfAny none)
  | someExpression : Same (.expression x) (.expression y) →
      Same (.expressionIfAny (some x)) (.expressionIfAny (some y))
  -- Blocks
  | guarded : Same (.expression x) (.expression y) → Same (.block b) (.block b') →
      Same (.guarded ⟨t, x, b⟩) (.guarded ⟨u, y, b'⟩)
  | noBranches : Same (.branches []) (.branches [])
  | branches : Same (.guarded g) (.guarded g') → Same (.branches gs) (.branches gs') →
      Same (.branches (g :: gs)) (.branches (g' :: gs'))
  | block : Same (.statements ss) (.statements ss') → Same (.block ⟨t, ss⟩) (.block ⟨u, ss'⟩)
  | noBlock : Same (.blockIfAny none) (.blockIfAny none)
  | someBlock : Same (.block b) (.block b') → Same (.blockIfAny (some b)) (.blockIfAny (some b'))
  -- Statements
  | noStatements : Same (.statements []) (.statements [])
  | statements : Same (.statement s) (.statement s') → Same (.statements ss) (.statements ss') →
      Same (.statements (s :: ss)) (.statements (s' :: ss'))
  | function : Same (.routine r) (.routine r') →
      Same (.statement (.function isStatic r)) (.statement (.function isStatic r'))
  | classDef : Same (.classDefinition d) (.classDefinition d') →
      Same (.statement (.classDef d)) (.statement (.classDef d'))
  | variable : n.text = m.text → Same (.expressionIfAny x) (.expressionIfAny y) →
      Same (.statement (.variable t storage n x)) (.statement (.variable u storage m y))
  | ret : Same (.expressionIfAny x) (.expressionIfAny y) →
      Same (.statement (.ret t x)) (.statement (.ret u y))
  | value : Same (.expression x) (.expression y) →
      Same (.statement (.expression t x)) (.statement (.expression u y))
  -- Declarations
  | routine : n.text = m.text → ns.map Name.text = ms.map Name.text →
      Same (.block b) (.block b') → Same (.routine ⟨t, n, ns, b, k⟩) (.routine ⟨u, m, ms, b', k'⟩)
  | noRoutines : Same (.routines []) (.routines [])
  | routines : Same (.routine r) (.routine r') → Same (.routines rs) (.routines rs') →
      Same (.routines (r :: rs)) (.routines (r' :: rs'))
  | classDefinition : n.text = m.text → parent.map Name.text = parent'.map Name.text →
      attributes.map (·.name.text) = attributes'.map (·.name.text) →
      Same (.routines rs) (.routines rs') →
      Same (.classDefinition ⟨t, n, parent, attributes, rs, k⟩)
        (.classDefinition ⟨u, m, parent', attributes', rs', k'⟩)

/-- The same program over other tokens. -/
def Program.Same (p q : Program) : Prop :=
  Part.Same (.statements p.statements) (.statements q.statements)

namespace Canonical

/-- Statements with one canonical form, with or without gaps around them. -/
def Reprints (s s' : Stmt) : Prop := stmt s = stmt s' ∧ s.isDeclaration = s'.isDeclaration

/-- Parts with one canonical form. -/
def SamePieces : Part → Part → Prop
  | .expression x, .expression y => ∀ nested, expression nested x = expression nested y
  | .expressions xs, .expressions ys => expressions xs = expressions ys ∧ xs.isEmpty = ys.isEmpty
  | .expressionIfAny x, .expressionIfAny y =>
      stepClause x = stepClause y ∧ initializer x = initializer y ∧ result x = result y
  | .guarded g, .guarded g' => ∀ opener, guarded opener g = guarded opener g'
  | .branches gs, .branches gs' => elseIfs gs = elseIfs gs'
  | .block b, .block b' => block b = block b'
  | .blockIfAny b, .blockIfAny b' => elseBlock b = elseBlock b'
  | .statements ss, .statements ss' => List.Forall₂ Reprints ss ss'
  | .statement s, .statement s' => Reprints s s'
  | .routine r, .routine r' => ∀ opener closer, routine opener closer r = routine opener closer r'
  | .routines rs, .routines rs' => methods rs = methods rs'
  | .classDefinition d, .classDefinition d' => classDefinition d = classDefinition d'
  | _, _ => False

theorem stmts_congr {ss ss' : List Stmt} (h : List.Forall₂ Reprints ss ss') :
    stmts ss = stmts ss' := by
  induction h with
  | nil => rfl
  | cons hs _ ih => rw [stmts, stmts, hs.1, ih]

theorem topLevel_congr {ss ss' : List Stmt} {previous previous' : Option Stmt}
    (h : List.Forall₂ Reprints ss ss') (hprevious : Option.Rel Reprints previous previous') :
    topLevel previous ss = topLevel previous' ss' := by
  induction h generalizing previous previous' with
  | nil => rfl
  | @cons s s' _ _ hs _ ih =>
      have hapart : (previous.any fun p => p.isDeclaration || s.isDeclaration) =
          previous'.any fun p => p.isDeclaration || s'.isDeclaration := by
        cases hprevious with
        | none => rfl
        | some hp => simp [hp.2, hs.2]
      rw [topLevel, topLevel, hs.1, ih (.some hs), hapart]

theorem parameterNames_congr {ns ms : List Name} (h : ns.map Name.text = ms.map Name.text) :
    parameterNames ns = parameterNames ms := by
  induction ns generalizing ms with
  | nil => rw [List.map_eq_nil_iff.mp h.symm]
  | cons n ns ih =>
      obtain ⟨m, ms, rfl, hm, hms⟩ := List.map_eq_cons_iff.mp h.symm
      have htail := ih hms.symm
      cases ns with
      | nil => rw [List.map_eq_nil_iff.mp hms, parameterNames, parameterNames, hm]
      | cons n' ns =>
          cases ms with
          | nil => simp at hms
          | cons m' ms =>
              show .text n.text :: .text ", " :: parameterNames (n' :: ns) =
                .text m.text :: .text ", " :: parameterNames (m' :: ms)
              rw [htail, hm]

theorem parent_congr {parent parent' : Option Name}
    (h : parent.map Name.text = parent'.map Name.text) :
    (parent.elim [] fun p => [space, .keyword .kwFrom, space, .text p.text]) =
      parent'.elim [] fun p => [space, .keyword .kwFrom, space, .text p.text] := by
  cases parent <;> cases parent' <;> simp_all

theorem attributeLines_congr {as as' : List Attribute}
    (h : as.map (·.name.text) = as'.map (·.name.text)) :
    as.flatMap attributeLine = as'.flatMap attributeLine := by
  have hall : ∀ as : List Attribute, as.flatMap attributeLine =
      (as.map (·.name.text)).flatMap fun s => [.keyword .kwData, space, .text s, .newline] := by
    intro as
    rw [List.flatMap_map]
    rfl
  rw [hall, hall, h]

/-- What is the same but for its tokens has one canonical form. -/
theorem samePieces {x y : Part} (h : x.Same y) : SamePieces x y := by
  induction h with
  | name hn hm htext => simp [SamePieces, expression, name, hn, hm, htext]
  | receiver hn hm => simp [SamePieces, expression, name, hn, hm]
  | integer h | float h | date h => simp [SamePieces, expression, h]
  | string | boolean | nil | missing => simp [SamePieces, expression]
  | array _ ih => simp [SamePieces, expression, ih.1]
  | unary _ ih => simp [SamePieces, expression, ih true]
  | binary _ _ ih ih' => simp [SamePieces, expression, ih true, ih' true]
  | call _ _ ih ih' => simp [SamePieces, expression, ih true, ih'.1]
  | index _ _ ih ih' => simp [SamePieces, expression, ih true, ih' false]
  | member ht hu _ hn ih => simp [SamePieces, expression, ht, hu, ih true, hn]
  | ownMember ht hu _ _ hm => simp [SamePieces, expression, ht, hu, hm]
  | assign _ _ ih ih' => simp [SamePieces, expression, ih true, ih' false]
  | branch _ _ _ ihg ihgs ihb => simp_all [SamePieces, expression]
  | whileLoop _ ih => simp [SamePieces, expression, ih .kwWhile]
  | forLoop hn _ _ _ _ ihx ihy ihz ihb => simp_all [SamePieces, expression]
  | noExpressions | noExpression | noBranches | noBlock | noRoutines => simp [SamePieces]
  | noStatements => exact .nil
  | expressions _ hxs ih ihs =>
      refine ⟨?_, rfl⟩
      cases hxs with
      | noExpressions => simp [expressions, ih false]
      | expressions _ _ => simp [expressions, ih false, ihs.1]
  | someExpression _ ih => simp [SamePieces, stepClause, initializer, result, ih false]
  | guarded _ _ ih ihb => simp_all [SamePieces, guarded]
  | branches _ _ ih ihs => simp_all [SamePieces, elseIfs]
  | block _ ih => simp [SamePieces, block, stmts_congr ih]
  | someBlock _ ih => simp_all [SamePieces, elseBlock]
  | statements _ _ ih ihs => exact .cons ih ihs
  | function _ ih => exact ⟨by simp [stmt, ih _ _], rfl⟩
  | classDef _ ih => exact ⟨by simp_all [stmt, SamePieces], rfl⟩
  | «variable» hn _ ih => exact ⟨by simp [stmt, hn, ih.2.1], rfl⟩
  | ret _ ih => exact ⟨by simp [stmt, ih.2.2], rfl⟩
  | value _ ih => exact ⟨by simp [stmt, ih false], rfl⟩
  | routine hn hns _ ih => simp_all [SamePieces, routine, parameters, parameterNames_congr hns]
  | routines _ _ ih ihs => simp_all [SamePieces, methods]
  | classDefinition hn hparent has _ ih =>
      simp_all [SamePieces, classDefinition, parent_congr hparent, attributeLines_congr has]

end Canonical

/-- A program is rendered as any other that is the same but for its tokens. -/
theorem Program.Same.render {p q : Program} (h : p.Same q) (style : Style) :
    q.render style = p.render style := by
  have hpieces : List.Forall₂ Canonical.Reprints p.statements q.statements :=
    Canonical.samePieces h
  rw [Program.render, Program.render, Canonical.topLevel_congr hpieces .none]

end Clipper
