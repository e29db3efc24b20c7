import Clipper.Proofs.Reading.Expression

/-!
The grammar as a relation: which stretch of tokens is read as which part of a tree. It
knows nothing of faults or of going on behind a fault, so it says what a text without errors
looks like. Lines matter to it: a spot keeps the line on which the token before it ended. So
does depth: a number is spent on each operand and on each link of a chain.
-/

namespace Clipper

/-- A point between two tokens of a text. -/
structure Spot where
  line : Nat
  rest : List Token

/-- One of these words. -/
def Token.isAny (words : List Keyword) (t : Token) : Bool := t.kind.keyword?.any words.contains

namespace Spot

/-- What holds of the next token, if there is one. -/
def next (p : Token → Bool) (s : Spot) : Bool := s.rest.head?.any p

/-- A statement can end here. -/
def stops (c : Context) (s : Spot) : Bool :=
  s.rest.head?.all fun t => t.isEnd || t.line != s.line || t.isAny c.closers

/-- The statements of a block end here. -/
def blockEnds (c : Context) (s : Spot) : Bool :=
  s.rest.head?.all fun t => t.isEnd || t.isAny c.closers

/-- The link that goes on with an expression here, if any. -/
def link? (c : Context) (precedence : Nat) (s : Spot) : Option Grammar.Link :=
  s.rest.head?.bind fun t =>
    (Grammar.Link.ofKind? t.kind).filter fun l =>
      precedence < l.precedence && (c.delimited || t.line == s.line)

/-- Further members of a class follow. -/
def moreMembers (c : Context) (s : Spot) : Bool :=
  s.next fun t => t.isAny [.kwData, .kwMethod] || (!t.isEnd && !t.isAny c.closers)

end Spot

namespace Grammar

section Links

variable {c : Context} {p l : Nat} {t : Token} {u : List Token} {lk : Link}

/-- A link is known by the kind of its token. -/
theorem ofKind?_of_link? (h : (⟨l, t :: u⟩ : Spot).link? c p = some lk) :
    Link.ofKind? t.kind = some lk :=
  (Option.filter_eq_some_iff.mp h).1

theorem link?_of_kind (hk : Link.ofKind? t.kind = some lk) (hp : p < lk.precedence)
    (hline : t.line = l) : (⟨l, t :: u⟩ : Spot).link? c p = some lk := by
  refine Option.filter_eq_some_iff.mpr ⟨hk, ?_⟩
  rw [decide_eq_true hp, beq_iff_eq.mpr hline, Bool.or_true, Bool.and_true]

theorem link?_loose (hk : Link.ofKind? t.kind = some lk) (hp : lk.precedence ≤ p) :
    (⟨l, t :: u⟩ : Spot).link? c p = none := by
  refine Option.filter_eq_none_iff.mpr fun lk' hlk' => ?_
  obtain rfl := Option.some.inj (hk.symm.trans hlk')
  rw [decide_eq_false (Nat.not_lt.mpr hp), Bool.false_and]
  exact Bool.false_ne_true

theorem link?_other (hk : Link.ofKind? t.kind = none) :
    (⟨l, t :: u⟩ : Spot).link? c p = none :=
  congrArg (Option.filter _) hk

end Links

/-- A part of a tree, with what its reading depends on. -/
inductive Phrase
  | expression (c : Context) (precedence : Nat) (x : Expr)
  | operand (c : Context) (x : Expr)
  /-- Links that take `left` into `x`. A bracket is there while its list of subscripts is
  open. -/
  | links (c : Context) (precedence : Nat) (bracket : Option Token) (left x : Expr)
  /-- Expressions with commas between them. -/
  | expressions (c : Context) (xs : List Expr)
  /-- Expressions with commas between them, if any, and the closing delimiter. -/
  | arguments (c : Context) (close : Punctuation) (xs : List Expr)
  | step (c : Context) (x : Option Expr)
  | guarded (c : Context) (closers : List Keyword) (g : Guarded)
  | branches (c : Context) (gs : List Guarded)
  | alternative (c : Context) (b : Option Block)
  | block (c : Context) (b : Block)
  | statements (c : Context) (ss : List Stmt)
  /-- One statement, or those of a list of variables. -/
  | statement (c : Context) (ss : List Stmt)
  | declarator (c : Context) (d : Name × Option Expr)
  | declarators (c : Context) (ds : List (Name × Option Expr))
  | routine (c : Context) (closers : List Keyword) (close : Keyword) (x : Routine)
  | members (c : Context) (ms : List Member)
  | member (c : Context) (ms : List Member)

/-- Names with commas between them. -/
inductive Names : List Name → Spot → Spot → Prop
  | last : t.kind = .identifier →
      (⟨t.endLine, u⟩ : Spot).next (·.isPunctuation .comma) = false →
      Names [⟨t⟩] ⟨l, t :: u⟩ ⟨t.endLine, u⟩
  | more :
      t.kind = .identifier → comma.isPunctuation .comma = true → Names ns ⟨comma.endLine, u⟩ s →
      Names (⟨t⟩ :: ns) ⟨l, t :: comma :: u⟩ s

/-- The parameters of a routine. Without a parenthesis on the line there are none. -/
inductive Parameters : List Name → Spot → Spot → Prop
  | absent :
      s.next (fun t => t.isPunctuation .openParen && t.line == s.line) = false → Parameters [] s s
  | empty : o.isPunctuation .openParen = true →
      o.line = l → close.isPunctuation .closeParen = true →
      Parameters [] ⟨l, o :: close :: u⟩ ⟨close.endLine, u⟩
  | names : o.isPunctuation .openParen = true → o.line = l →
      Names ns ⟨o.endLine, u⟩ ⟨l', close :: v⟩ → close.isPunctuation .closeParen = true →
      Parameters ns ⟨l, o :: u⟩ ⟨close.endLine, v⟩

/-- A closing word that may be left out. -/
inductive Closing (k : Keyword) : Option Token → Spot → Spot → Prop
  | absent : s.next (·.isKeyword k) = false → Closing k none s s
  | word : t.isKeyword k = true → Closing k (some t) ⟨l, t :: u⟩ ⟨t.endLine, u⟩

/-- The class that a class is derived from. -/
inductive Parent : Option Name → Spot → Spot → Prop
  | absent : s.next (·.isKeyword .kwFrom) = false → Parent none s s
  | named : f.isKeyword .kwFrom = true →
      t.kind = .identifier → Parent (some ⟨t⟩) ⟨l, f :: t :: u⟩ ⟨t.endLine, u⟩

/-- The word that opens a loop under a condition, or the two words. -/
inductive LoopWord : Token → Spot → Spot → Prop
  | while : t.isKeyword .kwWhile = true → LoopWord t ⟨l, t :: u⟩ ⟨t.endLine, u⟩
  | doWhile : t.isKeyword .kwDo = true →
      w.isKeyword .kwWhile = true → LoopWord t ⟨l, t :: w :: u⟩ ⟨w.endLine, u⟩

/-- The name of the counter behind the end of a loop. A lax reading only warns of another. -/
inductive CounterAgain (lax : Bool) (counter : Token) : Spot → Spot → Prop
  | absent : s.next (fun t => t.kind == .identifier && t.line == s.line) = false →
      CounterAgain lax counter s s
  | named : t.kind = .identifier → t.line = l →
      (lax || Text.sameWord t.literal counter.literal) = true →
      CounterAgain lax counter ⟨l, t :: u⟩ ⟨t.endLine, u⟩

/-- Between two spots a part of a tree is read, of expressions of at most a depth. A lax
reading lets pass what draws no more than a warning. -/
inductive Derives (lax : Bool) : Nat → Phrase → Spot → Spot → Prop
  | expression : Derives lax m (.operand c left) s s' →
      Derives lax m (.links c p none left x) s' s'' →
      Derives lax (m + 1) (.expression c p x) s s''
  -- Operands
  | name : t.kind = .identifier ∨ t.kind = .keyword .kwSelf →
      Derives lax m (.operand c (.name ⟨t⟩)) ⟨l, t :: u⟩ ⟨t.endLine, u⟩
  | integer : t.kind = .integer →
      Binary64.ofDigits t.literal.toList < integerBound →
      Derives lax m (.operand c (.integer t (Binary64.ofDigits t.literal.toList))) ⟨l, t :: u⟩
        ⟨t.endLine, u⟩
  | float : t.kind = .float → Binary64.ofDecimal? t.literal.toList = some bits →
      Derives lax m (.operand c (.float t bits)) ⟨l, t :: u⟩ ⟨t.endLine, u⟩
  | string : t.kind = .string →
      Derives lax m (.operand c (.string t (Literal.stringParts t.literal).1
        (Literal.stringParts t.literal).2)) ⟨l, t :: u⟩ ⟨t.endLine, u⟩
  | date : t.kind = .date → Derives lax m (.operand c (.date t)) ⟨l, t :: u⟩ ⟨t.endLine, u⟩
  | boolean : t.kind = .keyword (if value then .kwTrue else .kwFalse) →
      Derives lax m (.operand c (.boolean t value)) ⟨l, t :: u⟩ ⟨t.endLine, u⟩
  | nil : t.kind = .keyword .kwNil → Derives lax m (.operand c (.nil t)) ⟨l, t :: u⟩ ⟨t.endLine, u⟩
  | unary : t.kind = .operator op.operator →
      Derives lax m (.expression c Operator.not.precedence x) ⟨t.endLine, u⟩ s →
      Derives lax m (.operand c (.unary t op x)) ⟨l, t :: u⟩ s
  | group : t.isPunctuation .openParen = true →
      Derives lax m (.expression c.delimit loosest x) ⟨t.endLine, u⟩ ⟨l', close :: v⟩ →
      close.isPunctuation .closeParen = true →
      Derives lax m (.operand c x) ⟨l, t :: u⟩ ⟨close.endLine, v⟩
  | array : t.isPunctuation .openBrace = true →
      Derives lax m (.arguments c .closeBrace xs) ⟨t.endLine, u⟩ s →
      Derives lax m (.operand c (.array t xs)) ⟨l, t :: u⟩ s
  | ownMember : t.isPunctuation .colonColon = true → n.kind = .identifier →
      Derives lax m (.operand c (.member t (.name ⟨.implied (.keyword .kwSelf) "Self" t⟩) ⟨n⟩))
        ⟨l, t :: n :: u⟩ ⟨n.endLine, u⟩
  | branch : t.isKeyword .kwIf = true →
      Derives lax m (.guarded c branchClosers ⟨t, x, b⟩) ⟨t.endLine, u⟩ s →
      Derives lax m (.branches c gs) s s' →
      Derives lax m (.alternative c other) s' ⟨l', k :: v⟩ → k.isKeyword .kwEndIf = true →
      Derives lax m (.operand c (.branch ⟨t, x, b⟩ gs other (some k))) ⟨l, t :: u⟩ ⟨k.endLine, v⟩
  | whileLoop : LoopWord t s s' →
      Derives lax m (.guarded c [.kwEndDo] ⟨t, x, b⟩) s' ⟨l, k :: v⟩ →
      k.isKeyword .kwEndDo = true →
      Derives lax m (.operand c (.whileLoop ⟨t, x, b⟩ (some k))) s ⟨k.endLine, v⟩
  | forLoop : t.isKeyword .kwFor = true → n.kind = .identifier →
      (sign.isOperator .assign || sign.isOperator .equal) = true →
      Derives lax m (.expression c loosest a) ⟨sign.endLine, u⟩ ⟨l', mark :: v⟩ →
      mark.isKeyword .kwTo = true → Derives lax m (.expression c loosest b) ⟨mark.endLine, v⟩ s →
      Derives lax m (.step c step) s s' →
      Derives lax m (.block (c.insideExpression.enter [.kwNext]) bl) s' ⟨l'', k :: w⟩ →
      k.isKeyword .kwNext = true → CounterAgain lax n ⟨k.endLine, w⟩ s'' →
      Derives lax m (.operand c (.forLoop t ⟨n⟩ a b step bl (some k))) ⟨l, t :: n :: sign :: u⟩ s''
  -- Links
  | stop : s.link? c p = none → Derives lax m (.links c p none x x) s s
  | binary : (⟨l, t :: u⟩ : Spot).link? c p = some (.binary op) →
      Derives lax m (.expression c op.operator.precedence y) ⟨t.endLine, u⟩ s →
      Derives lax m (.links c p none (.binary t op left y) x) s s' →
      Derives lax (m + 1) (.links c p none left x) ⟨l, t :: u⟩ s'
  | assign : (⟨l, t :: u⟩ : Spot).link? c p = some .assign → left.isAssignable = true →
      Derives lax m (.expression c loosest y) ⟨t.endLine, u⟩ s →
      Derives lax m (.links c p none (.assign t left y) x) s s' →
      Derives lax (m + 1) (.links c p none left x) ⟨l, t :: u⟩ s'
  | call : (⟨l, t :: u⟩ : Spot).link? c p = some .call →
      Derives lax m (.arguments c .closeParen xs) ⟨t.endLine, u⟩ s →
      Derives lax m (.links c p none (.call t left xs) x) s s' →
      Derives lax (m + 1) (.links c p none left x) ⟨l, t :: u⟩ s'
  | index : (⟨l, t :: u⟩ : Spot).link? c p = some .index →
      Derives lax m (.expression c.delimit loosest i) ⟨t.endLine, u⟩ s →
      Derives lax m (.links c p (some t) (.index t left i) x) s s' →
      Derives lax (m + 1) (.links c p none left x) ⟨l, t :: u⟩ s'
  | subscript : t.isPunctuation .comma = true →
      Derives lax m (.expression c.delimit loosest i) ⟨t.endLine, u⟩ s →
      Derives lax m (.links c p (some bracket) (.index bracket left i) x) s s' →
      Derives lax (m + 1) (.links c p (some bracket) left x) ⟨l, t :: u⟩ s'
  | closeIndex : t.isPunctuation .closeBracket = true →
      Derives lax m (.links c p none left x) ⟨t.endLine, u⟩ s →
      Derives lax m (.links c p (some bracket) left x) ⟨l, t :: u⟩ s
  | member : (⟨l, t :: n :: u⟩ : Spot).link? c p = some .member → n.kind = .identifier →
      Derives lax m (.links c p none (.member t left ⟨n⟩) x) ⟨n.endLine, u⟩ s →
      Derives lax (m + 1) (.links c p none left x) ⟨l, t :: n :: u⟩ s
  -- Lists of expressions
  | lastExpression :
      Derives lax m (.expression c loosest x) s s' → s'.next (·.isPunctuation .comma) = false →
      Derives lax m (.expressions c [x]) s s'
  | moreExpressions :
      Derives lax m (.expression c loosest x) s ⟨l, comma :: u⟩ →
      comma.isPunctuation .comma = true → Derives lax m (.expressions c xs) ⟨comma.endLine, u⟩ s' →
      Derives lax m (.expressions c (x :: xs)) s s'
  | noArguments : t.isPunctuation close = true →
      Derives lax m (.arguments c close []) ⟨l, t :: u⟩ ⟨t.endLine, u⟩
  | arguments : s.next (·.isPunctuation close) = false →
      Derives lax m (.expressions c.delimit xs) s ⟨l, t :: u⟩ → t.isPunctuation close = true →
      Derives lax m (.arguments c close xs) s ⟨t.endLine, u⟩
  -- Parts of conditionals and loops
  | noStep : s.next (·.isKeyword .kwStep) = false → Derives lax m (.step c none) s s
  | step : t.isKeyword .kwStep = true → Derives lax m (.expression c loosest x) ⟨t.endLine, u⟩ s →
      Derives lax m (.step c (some x)) ⟨l, t :: u⟩ s
  | guarded : Derives lax m (.expression c loosest x) s s' →
      Derives lax m (.block (c.insideExpression.enter closers) b) s' s'' →
      Derives lax m (.guarded c closers ⟨t, x, b⟩) s s''
  | noBranches : s.next (·.isKeyword .kwElseIf) = false → Derives lax m (.branches c []) s s
  | branches : t.isKeyword .kwElseIf = true →
      Derives lax m (.guarded c branchClosers ⟨t, x, b⟩) ⟨t.endLine, u⟩ s →
      Derives lax m (.branches c gs) s s' →
      Derives lax m (.branches c (⟨t, x, b⟩ :: gs)) ⟨l, t :: u⟩ s'
  | noAlternative : s.next (·.isKeyword .kwElse) = false → Derives lax m (.alternative c none) s s
  | alternative : t.isKeyword .kwElse = true →
      Derives lax m (.block (c.insideExpression.enter [.kwEndIf]) b) ⟨t.endLine, u⟩ s →
      Derives lax m (.alternative c (some b)) ⟨l, t :: u⟩ s
  -- Statements
  | block :
      Derives lax m (.statements c ss) ⟨l, t :: u⟩ s →
      Derives lax m (.block c ⟨t, ss⟩) ⟨l, t :: u⟩ s
  | noStatements : s.blockEnds c = true → Derives lax m (.statements c []) s s
  | statements : s.blockEnds c = false →
      Derives lax m (.statement c ss) s s' → Derives lax m (.statements c ss') s' s'' →
      Derives lax m (.statements c (ss ++ ss')) s s''
  | variableList : isStorage t.kind = true →
      Derives lax m (.declarators c ds) ⟨t.endLine, u⟩ s → s.stops c = true →
      Derives lax m (.statement c (ds.map fun d => .variable t (storageOf t) d.1 d.2)) ⟨l, t :: u⟩ s
  | returnNothing : t.isKeyword .kwReturn = true → (⟨t.endLine, u⟩ : Spot).stops c = true →
      Derives lax m (.statement c [.ret t none]) ⟨l, t :: u⟩ ⟨t.endLine, u⟩
  | returnValue : t.isKeyword .kwReturn = true → (⟨t.endLine, u⟩ : Spot).stops c = false →
      Derives lax m (.expression c loosest x) ⟨t.endLine, u⟩ s → s.stops c = true →
      Derives lax m (.statement c [.ret t (some x)]) ⟨l, t :: u⟩ s
  | value : Derives lax m (.expression c loosest x) ⟨l, t :: u⟩ s → s.stops c = true →
      Derives lax m (.statement c [.expression t x]) ⟨l, t :: u⟩ s
  | function : c.inRoutine = false →
      t.isKeyword .kwFunction = true →
      Derives lax m (.routine c functionClosers .kwEndFunction ⟨t, n, ps, b, k⟩) ⟨t.endLine, u⟩ s →
      Derives lax m (.statement c [.function false ⟨t, n, ps, b, k⟩]) ⟨l, t :: u⟩ s
  | staticFunction : c.inRoutine = false →
      t.isKeyword .kwStatic = true → f.isKeyword .kwFunction = true →
      Derives lax m (.routine c functionClosers .kwEndFunction ⟨t, n, ps, b, k⟩) ⟨f.endLine, u⟩ s →
      Derives lax m (.statement c [.function true ⟨t, n, ps, b, k⟩]) ⟨l, t :: f :: u⟩ s
  | classDef : c.inRoutine = false → t.isKeyword .kwClass = true →
      n.kind = .identifier → Parent parent ⟨n.endLine, u⟩ s →
      Derives lax m (.members (c.enter classClosers) ms) s ⟨l', k :: v⟩ →
      k.isKeyword .kwEndClass = true →
      Derives lax m (.statement c [.classDef ⟨t, ⟨n⟩, parent, ms.filterMap Member.attribute?,
        ms.filterMap Member.method?, some k⟩]) ⟨l, t :: n :: u⟩ ⟨k.endLine, v⟩
  -- Parts of declarations
  | declared : n.kind = .identifier →
      (⟨n.endLine, u⟩ : Spot).next (·.isOperator .assign) = false →
      Derives lax m (.declarator c (⟨n⟩, none)) ⟨l, n :: u⟩ ⟨n.endLine, u⟩
  | initialized : n.kind = .identifier → sign.isOperator .assign = true →
      Derives lax m (.expression c loosest x) ⟨sign.endLine, u⟩ s →
      Derives lax m (.declarator c (⟨n⟩, some x)) ⟨l, n :: sign :: u⟩ s
  | lastDeclarator :
      Derives lax m (.declarator c d) s s' → s'.next (·.isPunctuation .comma) = false →
      Derives lax m (.declarators c [d]) s s'
  | moreDeclarators :
      Derives lax m (.declarator c d) s ⟨l, comma :: u⟩ → comma.isPunctuation .comma = true →
      Derives lax m (.declarators c ds) ⟨comma.endLine, u⟩ s' →
      Derives lax m (.declarators c (d :: ds)) s s'
  | routine : n.kind = .identifier → Parameters ps ⟨n.endLine, u⟩ s →
      Derives lax m (.block (c.insideRoutine.enter closers) b) s s' → Closing close k s' s'' →
      Derives lax m (.routine c closers close ⟨t, ⟨n⟩, ps, b, k⟩) ⟨l, n :: u⟩ s''
  | noMembers : s.moreMembers c = false → Derives lax m (.members c []) s s
  | members : Derives lax m (.member c ms) s s' → Derives lax m (.members c ms') s' s'' →
      Derives lax m (.members c (ms ++ ms')) s s''
  | attributes : t.isKeyword .kwData = true → Names ns ⟨t.endLine, u⟩ s → s.stops c = true →
      Derives lax m (.member c (ns.map fun n => .data ⟨t, n⟩)) ⟨l, t :: u⟩ s
  | method : t.isKeyword .kwMethod = true →
      Derives lax m (.routine c methodClosers .kwEndMethod ⟨t, n, ps, b, k⟩) ⟨t.endLine, u⟩ s →
      Derives lax m (.member c [.method ⟨t, n, ps, b, k⟩]) ⟨l, t :: u⟩ s

end Grammar

end Clipper
