import Clipper.Proofs.Grammar.Spot
import Mathlib.Data.List.Forall2
import Mathlib.Data.Option.Defs

/-!
Two texts that are read alike, and their trees. A correspondence says which tokens of one
text stand for which tokens of the other. The first text may also end where the other goes
on with a declaration: a reader that cannot take the words of a declaration stops at both.
-/

namespace Clipper

/-- The literal says more than the kind. -/
def TokenKind.hasContent : TokenKind → Bool
  | keyword _ | operator _ => false
  | _ => true

/-- The words with which a declaration at file level begins. -/
def declaring : List Keyword := [.kwFunction, .kwStatic, .kwClass]

structure Correspondence where
  token : Token → Token → Prop
  /-- The end of the first text and what the second has in its place. -/
  ending : Token → Token → Prop
  /-- Where these words close a block, it ends at the end of the first text and in its place
  in the second. -/
  guards : List Keyword → Prop
  /-- What the second text has behind the place where the first one ends. -/
  beyond : List Token
  /-- The faults found in the first text and in the second before they are compared. -/
  earlier : List Fault
  earlier' : List Fault
  kind_eq : ∀ {t u}, token t u → t.kind = u.kind
  literal_eq : ∀ {t u}, token t u → t.kind.hasContent = true → t.literal = u.literal
  isEnd_token : ∀ {t u}, token t u → t.isEnd = false
  isEnd_ending : ∀ {t u}, ending t u → t.isEnd = true
  ending_declares : ∀ {t u}, ending t u → u.isEnd = true ∨ u.isAny declaring = true
  guards_close : ∀ {t u cs}, ending t u → guards cs → u.isEnd = true ∨ u.isAny cs = true
  guards_append : ∀ {cs} (ds), guards cs → guards (ds ++ cs)
  guards_function : ∀ cs, guards (Grammar.functionClosers ++ cs)
  guards_class : ∀ cs, guards (Grammar.classClosers ++ cs)

namespace Correspondence

variable (K : Correspondence)

/-- The tokens at which two readers stand that have come equally far. -/
def Meets (t u : Token) : Prop := K.token t u ∨ K.ending t u

/-- A token that was taken, or a placeholder where none could be. -/
inductive Names : Name → Name → Prop
  | written {t u : Token} : K.token t u → t.kind = .identifier → Names ⟨t⟩ ⟨u⟩
  | missing {t u : Token} : K.Meets t u → Names (.missing t) (.missing u)

structure Attributes (a b : Attribute) : Prop where
  token : K.token a.token b.token
  name : K.Names a.name b.name

end Correspondence

/-- A part of a tree. -/
inductive Part
  | expression (e : Expr)
  | expressions (es : List Expr)
  | expressionIfAny (e : Option Expr)
  | guarded (g : Guarded)
  | branches (gs : List Guarded)
  | block (b : Block)
  | blockIfAny (b : Option Block)
  | statements (ss : List Stmt)
  | statement (s : Stmt)
  | routine (r : Routine)
  | routines (rs : List Routine)
  | classDefinition (d : ClassDef)

/-- Parts with the same shape over corresponding tokens. Where `nested` holds, inside a routine
or a class, no function or class is declared. -/
inductive Part.Alike (K : Correspondence) : Bool → Part → Part → Prop
  -- Expressions
  | name : K.token t u → t.kind = .identifier ∨ t.kind = .keyword .kwSelf →
      Alike K nested (.expression (.name ⟨t⟩)) (.expression (.name ⟨u⟩))
  | integer : K.token t u →
      Alike K nested (.expression (.integer t value)) (.expression (.integer u value))
  | float : K.token t u →
      Alike K nested (.expression (.float t bits)) (.expression (.float u bits))
  | string : K.token t u →
      Alike K nested (.expression (.string t delimiter body))
        (.expression (.string u delimiter body))
  | date : K.token t u → Alike K nested (.expression (.date t)) (.expression (.date u))
  | boolean : K.token t u →
      Alike K nested (.expression (.boolean t value)) (.expression (.boolean u value))
  | nil : K.token t u → Alike K nested (.expression (.nil t)) (.expression (.nil u))
  | array : K.token t u → Alike K nested (.expressions xs) (.expressions ys) →
      Alike K nested (.expression (.array t xs)) (.expression (.array u ys))
  | unary : K.token t u → Alike K nested (.expression x) (.expression y) →
      Alike K nested (.expression (.unary t op x)) (.expression (.unary u op y))
  | binary : K.token t u → Alike K nested (.expression x) (.expression y) →
      Alike K nested (.expression x') (.expression y') →
      Alike K nested (.expression (.binary t op x x')) (.expression (.binary u op y y'))
  | call : K.token t u → Alike K nested (.expression x) (.expression y) →
      Alike K nested (.expressions xs) (.expressions ys) →
      Alike K nested (.expression (.call t x xs)) (.expression (.call u y ys))
  | index : K.token t u → Alike K nested (.expression x) (.expression y) →
      Alike K nested (.expression x') (.expression y') →
      Alike K nested (.expression (.index t x x')) (.expression (.index u y y'))
  | member : K.token t u → Alike K nested (.expression x) (.expression y) → K.Names n n' →
      Alike K nested (.expression (.member t x n)) (.expression (.member u y n'))
  | ownMember : K.token t u → K.Names n n' →
      Alike K nested
        (.expression (.member t (.name ⟨.implied (.keyword .kwSelf) "Self" t⟩) n))
        (.expression (.member u (.name ⟨.implied (.keyword .kwSelf) "Self" u⟩) n'))
  | assign : K.token t u → Alike K nested (.expression x) (.expression y) →
      Alike K nested (.expression x') (.expression y') →
      Alike K nested (.expression (.assign t x x')) (.expression (.assign u y y'))
  | branch : Alike K nested (.guarded g) (.guarded g') →
      Alike K nested (.branches gs) (.branches gs') →
      Alike K nested (.blockIfAny b) (.blockIfAny b') → Option.Rel K.token closing closing' →
      Alike K nested (.expression (.branch g gs b closing))
        (.expression (.branch g' gs' b' closing'))
  | whileLoop : Alike K nested (.guarded g) (.guarded g') → Option.Rel K.token closing closing' →
      Alike K nested (.expression (.whileLoop g closing)) (.expression (.whileLoop g' closing'))
  | forLoop : K.token t u → K.Names n n' → Alike K nested (.expression x) (.expression x') →
      Alike K nested (.expression y) (.expression y') →
      Alike K nested (.expressionIfAny z) (.expressionIfAny z') →
      Alike K nested (.block b) (.block b') → Option.Rel K.token closing closing' →
      Alike K nested (.expression (.forLoop t n x y z b closing))
        (.expression (.forLoop u n' x' y' z' b' closing'))
  | missing : K.Meets t u → Alike K nested (.expression (.missing t)) (.expression (.missing u))
  | noExpressions : Alike K nested (.expressions []) (.expressions [])
  | expressions : Alike K nested (.expression x) (.expression y) →
      Alike K nested (.expressions xs) (.expressions ys) →
      Alike K nested (.expressions (x :: xs)) (.expressions (y :: ys))
  | noExpression : Alike K nested (.expressionIfAny none) (.expressionIfAny none)
  | someExpression : Alike K nested (.expression x) (.expression y) →
      Alike K nested (.expressionIfAny (some x)) (.expressionIfAny (some y))
  -- Blocks
  | guarded : K.token t u → Alike K nested (.expression x) (.expression y) →
      Alike K nested (.block b) (.block b') →
      Alike K nested (.guarded ⟨t, x, b⟩) (.guarded ⟨u, y, b'⟩)
  | noBranches : Alike K nested (.branches []) (.branches [])
  | branches : Alike K nested (.guarded g) (.guarded g') →
      Alike K nested (.branches gs) (.branches gs') →
      Alike K nested (.branches (g :: gs)) (.branches (g' :: gs'))
  | emptyBlock : K.Meets t u → Alike K nested (.block ⟨t, []⟩) (.block ⟨u, []⟩)
  | block : K.token t u → Alike K nested (.statements ss) (.statements ss') →
      Alike K nested (.block ⟨t, ss⟩) (.block ⟨u, ss'⟩)
  | noBlock : Alike K nested (.blockIfAny none) (.blockIfAny none)
  | someBlock : Alike K nested (.block b) (.block b') →
      Alike K nested (.blockIfAny (some b)) (.blockIfAny (some b'))
  -- Statements
  | noStatements : Alike K nested (.statements []) (.statements [])
  | statements : Alike K nested (.statement s) (.statement s') →
      Alike K nested (.statements ss) (.statements ss') →
      Alike K nested (.statements (s :: ss)) (.statements (s' :: ss'))
  | function : Alike K true (.routine r) (.routine r') →
      Alike K false (.statement (.function isStatic r)) (.statement (.function isStatic r'))
  | classDef : Alike K true (.classDefinition d) (.classDefinition d') →
      Alike K false (.statement (.classDef d)) (.statement (.classDef d'))
  | variable : K.token t u → K.Names n n' →
      Alike K nested (.expressionIfAny x) (.expressionIfAny y) →
      Alike K nested (.statement (.variable t storage n x)) (.statement (.variable u storage n' y))
  | ret : K.token t u → Alike K nested (.expressionIfAny x) (.expressionIfAny y) →
      Alike K nested (.statement (.ret t x)) (.statement (.ret u y))
  | expression : K.token t u → Alike K nested (.expression x) (.expression y) →
      Alike K nested (.statement (.expression t x)) (.statement (.expression u y))
  | routine : K.token t u → K.Names n n' → List.Forall₂ K.Names ps ps' →
      Alike K nested (.block b) (.block b') → Option.Rel K.token closing closing' →
      Alike K nested (.routine ⟨t, n, ps, b, closing⟩) (.routine ⟨u, n', ps', b', closing'⟩)
  | noRoutines : Alike K nested (.routines []) (.routines [])
  | routines : Alike K nested (.routine r) (.routine r') →
      Alike K nested (.routines rs) (.routines rs') →
      Alike K nested (.routines (r :: rs)) (.routines (r' :: rs'))
  | classDefinition : K.token t u → K.Names n n' → Option.Rel K.Names parent parent' →
      List.Forall₂ K.Attributes attributes attributes' →
      Alike K nested (.routines ms) (.routines ms') → Option.Rel K.token closing closing' →
      Alike K nested (.classDefinition ⟨t, n, parent, attributes, ms, closing⟩)
        (.classDefinition ⟨u, n', parent', attributes', ms', closing'⟩)

/-- The faults found, illegal characters apart. -/
def Reader.found (r : Reader) : List Fault := r.faults.toList.filter (·.illegal?.isNone)

namespace Correspondence

/-- Faults of the same kind over corresponding tokens. -/
inductive Faults (K : Correspondence) : Fault → Fault → Prop
  | expected (what : String) : K.Meets t u → Faults K (.expected what t) (.expected what u)
  | unclosed (closer : String) : K.token o o' → K.Meets t u →
      Faults K (.unclosed closer o t) (.unclosed closer o' u)
  | notAStatement : K.Meets t u → Faults K (.notAStatement t) (.notAStatement u)
  | notAnExpression : K.Meets t u → Faults K (.notAnExpression t) (.notAnExpression u)
  | lineGoesOn : K.Meets t u → Faults K (.lineGoesOn t) (.lineGoesOn u)
  | notAssignable : K.Meets t u → Faults K (.notAssignable t) (.notAssignable u)
  | tooDeep : K.Meets t u → Faults K (.tooDeep t) (.tooDeep u)
  | otherCounter : K.token t u → t.kind = .identifier → K.token o o' →
      Faults K (.otherCounter t o) (.otherCounter u o')
  | integerTooLarge : K.token t u → Faults K (.integerTooLarge t) (.integerTooLarge u)
  | malformedNumber : K.token t u → Faults K (.malformedNumber t) (.malformedNumber u)

/-- The tokens before two spots correspond one by one as far as the first text goes, and so do
their lines. A fault of layout is found in both or in neither. -/
inductive Spots (K : Correspondence) : Spot → Spot → Prop
  | ended {l l' : Nat} {us : List Token} : K.ending t u → u.isEnd = true ∨ u.line ≠ l' →
      us = K.beyond → Spots K ⟨l, [t]⟩ ⟨l', u :: us⟩
  | step {l l' : Nat} {ts us : List Token} : K.token t u → (t.line == l) = (u.line == l') →
      (t.isKeyword .kwStatic = true →
        ts.head?.any (·.isKeyword .kwFunction) = us.head?.any (·.isKeyword .kwFunction)) →
      Spots K ⟨t.endLine, ts⟩ ⟨u.endLine, us⟩ → Spots K ⟨l, t :: ts⟩ ⟨l', u :: us⟩

/-- Faults that are alike behind those found before. -/
def Findings (K : Correspondence) (fs fs' : List Fault) : Prop :=
  ∃ xs xs', fs = K.earlier ++ xs ∧ fs' = K.earlier' ++ xs' ∧ List.Forall₂ K.Faults xs xs'

/-- Two readers that have come equally far. -/
structure Readers (K : Correspondence) (r r' : Reader) : Prop where
  sound : r.Sound
  sound' : r'.Sound
  spots : K.Spots r.spot r'.spot
  muted : r.muted = r'.muted
  found : K.Findings r.found r'.found
  ordered : r.pending.Pairwise fun t u => t.span.start < u.span.start
  ordered' : r'.pending.Pairwise fun t u => t.span.start < u.span.start

end Correspondence

end Clipper
