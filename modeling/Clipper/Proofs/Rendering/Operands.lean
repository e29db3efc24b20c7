import Clipper.Proofs.Grammar.Climbing
import Clipper.Proofs.Rendering.Headers
import Clipper.Proofs.Rendering.Legible
import Clipper.Proofs.Rendering.Same
import Clipper.Proofs.Rendering.Words

/-!
The canonical form of an expression, read again. Its parentheses keep the operands apart: a tree
that is tight is read whatever goes on behind it, and where a loose one is written nothing goes on.
-/

namespace Clipper

open Lexeme Layout Canonical Grammar

theorem Part.Same.isAssignable {x y : Expr} (h : Part.Same (.expression x) (.expression y)) :
    y.isAssignable = x.isAssignable := by
  cases h <;> rfl

/-! ### Where statements begin -/

/-- A statement may begin with this word, in a routine or outside. -/
def Keyword.leads (inRoutine : Bool) (k : Keyword) : Bool :=
  k.startsExpression || isStorage (.keyword k) || k == .kwReturn ||
    !inRoutine && declaring.contains k

/-- In canonical form a statement may begin so. -/
def TokenKind.leads (inRoutine : Bool) : TokenKind → Bool
  | keyword k => k.leads inRoutine
  | identifier | integer | float | string | date => true
  | punctuation p => p == .openParen || p == .openBrace || p == .colonColon
  | _ => false

/-- A place where a tree is read again: in a routine or not, with no block around it that a word
closes with which a statement begins, and where the headers end. -/
structure Context.Suits (c : Context) (r : Bool) (P : Bool → Bool) : Prop where
  inRoutine : c.inRoutine = r
  closers : ∀ k ∈ c.closers, k.leads r = false
  headers : P c.delimited = true

namespace Context.Suits

variable {c : Context} {r q : Bool} {P Q : Bool → Bool}

theorem left (h : c.Suits r fun d => P d && Q d) : c.Suits r P :=
  ⟨h.inRoutine, h.closers, (Bool.and_eq_true .. ▸ h.headers).1⟩

theorem right (h : c.Suits r fun d => P d && Q d) : c.Suits r Q :=
  ⟨h.inRoutine, h.closers, (Bool.and_eq_true .. ▸ h.headers).2⟩

theorem delimit (h : c.Suits r fun _ => P true) : c.delimit.Suits r P :=
  ⟨h.inRoutine, h.closers, h.headers⟩

theorem undelimited (h : c.Suits r fun _ => P false) (hc : c.delimited = false) : c.Suits r P :=
  ⟨h.inRoutine, h.closers, hc ▸ h.headers⟩

theorem insideExpression (h : c.Suits r P) : c.insideExpression.Suits r P :=
  ⟨h.inRoutine, h.closers, h.headers⟩

/-- In a routine no more can be declared than outside. -/
theorem insideRoutine (h : c.Suits r fun _ => q) : c.insideRoutine.Suits true fun _ => q where
  inRoutine := rfl
  closers := fun k hk => by
    have hleads := h.closers k hk
    revert hleads
    cases k <;> cases r <;> decide
  headers := h.headers

theorem enter {ks : List Keyword} (h : c.Suits r fun _ => q) (hks : ∀ k ∈ ks, k.leads r = false) :
    (c.enter ks).Suits r fun _ => q :=
  ⟨h.inRoutine, List.forall_mem_append.mpr ⟨hks, h.closers⟩, h.headers⟩

end Context.Suits

namespace Spot

/-- No name goes on with the line. -/
def Unnamed (s : Spot) : Prop := s.next (fun t => t.kind == .identifier && t.line == s.line) = false

/-- No expression goes on here, and no name behind it. -/
structure Over (s : Spot) (c : Context) : Prop where
  link : s.link? c loosest = none
  unnamed : s.Unnamed

variable {c : Context} {l : Nat} {t : Token} {u : List Token}

theorem unnamed_of_kind (ht : t.kind ≠ .identifier) : (⟨l, t :: u⟩ : Spot).Unnamed := by
  simp [Unnamed, next, ht]

theorem over_of_kind (hlink : Link.ofKind? t.kind = none) (ht : t.kind ≠ .identifier) :
    (⟨l, t :: u⟩ : Spot).Over c :=
  ⟨link?_other hlink, unnamed_of_kind ht⟩

theorem over_of_end (ht : t.isEnd = true) : (⟨l, t :: u⟩ : Spot).Over c := by
  have hk : t.kind = .endOfInput := by simpa [Token.isEnd] using ht
  exact over_of_kind (by rw [hk]; rfl) (by simp [hk])

end Spot

namespace Grammar

/-! ### What elements are read as -/

/-- The elements are read as the tree, whatever goes on behind them. -/
def Tight (r : Bool) (P : Bool → Bool) (is : List Element) (x : Expr) : Prop :=
  ∀ ⦃ts l l'⦄, Printed l is ts l' → ∃ y, Part.Same (.expression x) (.expression y) ∧
    ∀ (c : Context) (p l₀ : Nat) (u : List Token) (z : Expr) (s : Spot), c.Suits r P →
      p < Link.call.precedence → (⟨l', u⟩ : Spot).Unnamed →
      (∃ m, Derives false m (.links c p none y z) ⟨l', u⟩ s) →
      ∃ m, Derives false m (.expression c p z) ⟨l₀, ts ++ u⟩ s

/-- The elements are read as the tree where no operator and no link goes on behind them. -/
def Loose (r : Bool) (P : Bool → Bool) (is : List Element) (x : Expr) : Prop :=
  ∀ ⦃ts l l'⦄, Printed l is ts l' → ∃ y, Part.Same (.expression x) (.expression y) ∧
    ∀ (c : Context) (l₀ : Nat) (u : List Token), c.Suits r P → (⟨l', u⟩ : Spot).Over c →
      ∃ m, Derives false m (.expression c loosest y) ⟨l₀, ts ++ u⟩ ⟨l', u⟩

/-- The elements are read as the trees, up to something that is no comma, no link and no name. -/
def LooseRow (r q : Bool) (is : List Element) (xs : List Expr) : Prop :=
  ∀ ⦃ts l l'⦄, Printed l is ts l' → ∃ ys, Part.Same (.expressions xs) (.expressions ys) ∧
    ∀ (c : Context) (l₀ : Nat) (k : Token) (u : List Token), c.Suits r (fun _ => q) →
      Link.ofKind? k.kind = none → k.kind ≠ .identifier → k.isPunctuation .comma = false →
      ∃ m, Derives false m (.expressions c.delimit ys) ⟨l₀, ts ++ k :: u⟩ ⟨l', k :: u⟩

/-- The elements are read as the trees and the closing bracket behind them. -/
def Bracketed (close : Punctuation) (r q : Bool) (is : List Element) (xs : List Expr) : Prop :=
  ∀ ⦃ts l l'⦄, Printed l is ts l' → ∃ ys, Part.Same (.expressions xs) (.expressions ys) ∧
    ∀ (c : Context) (l₀ : Nat) (u : List Token), c.Suits r (fun _ => q) →
      ∃ m, Derives false m (.arguments c close ys) ⟨l₀, ts ++ u⟩ ⟨l', u⟩

variable {c : Context} {p l l' l₀ : Nat} {t k : Token} {ts u : List Token} {is js : List Element}
  {x y : Expr} {xs ys : List Expr} {style : Style} {r q : Bool} {P Q : Bool → Bool}

theorem kind_of_word {w : Word} (h : t.word = w) : t.kind = w.1 := congrArg Prod.fst h

theorem literal_of_word {w : Word} (h : t.word = w) : t.literal = w.2 := congrArg Prod.snd h

theorem isPunctuation_of_marked {q : Punctuation} (h : t.word = marked q) :
    t.isPunctuation q = true := by
  simp [Token.isPunctuation, kind_of_word h, marked]

/-- Tokens the first of which is some word. -/
theorem exists_first {w : Word} (h : Printed l (.word w :: is) ts l') :
    ∃ t us, ts = t :: us ∧ t.word = w ∧ t.line = l ∧ Printed t.endLine is us l' := by
  cases h with
  | word hw hline h => exact ⟨_, _, rfl, hw, hline, h⟩

/-- Tokens of one word. -/
theorem exists_single {w : Word} (h : Printed l [.word w] ts l') :
    ∃ t, ts = [t] ∧ t.word = w ∧ t.line = l ∧ t.endLine = l' := by
  obtain ⟨t, us, rfl, ht, hline, hnone⟩ := exists_first h
  cases hnone
  exact ⟨t, rfl, ht, hline, rfl⟩

/-- Tokens with one of some word among them. -/
theorem exists_around {w : Word} (h : Printed l (is ++ .word w :: js) ts l') :
    ∃ us o us', ts = us ++ o :: us' ∧ o.word = w ∧ Printed l is us o.line ∧
      Printed o.endLine js us' l' := by
  obtain ⟨us, _, k, rfl, hus, hbehind⟩ := h.split
  obtain ⟨o, us', rfl, ho, rfl, hus'⟩ := exists_first hbehind
  exact ⟨us, o, us', rfl, ho, hus, hus'⟩

/-- Tokens the last of which is some word. -/
theorem exists_last {w : Word} (h : Printed l (is ++ [.word w]) ts l') :
    ∃ us k, ts = us ++ [k] ∧ k.word = w ∧ Printed l is us k.line ∧ k.endLine = l' := by
  obtain ⟨us, k, _, rfl, hk, hus, hnone⟩ := exists_around h
  cases hnone
  exact ⟨us, k, rfl, hk, hus, rfl⟩

theorem Tight.loose (h : Tight r P is x) : Loose r P is x := by
  intro ts l l' hts
  obtain ⟨y, hy, hread⟩ := h hts
  exact ⟨y, hy, fun c l₀ u hc hend =>
    hread c loosest l₀ u y _ hc (by decide) hend.unnamed ⟨0, .stop hend.link⟩⟩

/-! ### Operands -/

/-- What is read as an operand is read with whatever goes on behind it. -/
theorem exists_expression {z : Expr} {s : Spot}
    (h : ∃ m, Derives false m (.operand c y) ⟨l₀, ts⟩ ⟨l', u⟩)
    (hlinks : ∃ m, Derives false m (.links c p none y z) ⟨l', u⟩ s) :
    ∃ m, Derives false m (.expression c p z) ⟨l₀, ts⟩ s := by
  obtain ⟨m, hm⟩ := hlinks
  obtain ⟨n, hn⟩ := h
  exact ⟨max m n + 1, .expression (hn.mono (le_max_right ..)) (hm.mono (le_max_left ..))⟩

/-- One token that is an operand. -/
theorem tight_token {w : Word}
    (h : ∀ t : Token, t.word = w → ∃ y, Part.Same (.expression x) (.expression y) ∧
      ∀ c l u, Derives false 0 (.operand c y) ⟨l, t :: u⟩ ⟨t.endLine, u⟩) :
    Tight r P [.word w] x := by
  intro ts l l' hts
  obtain ⟨t, rfl, ht, -, rfl⟩ := exists_single hts
  obtain ⟨y, hy, hoperand⟩ := h t ht
  exact ⟨y, hy, fun c p l₀ u z s _ _ _ => exists_expression ⟨0, hoperand c l₀ u⟩⟩

theorem Loose.group (h : Loose r P is x) :
    Tight r (fun _ => P true)
      (.word (marked .openParen) :: is ++ [.word (marked .closeParen)]) x := by
  intro ts l l' hts
  obtain ⟨_, k, rfl, hk, hinner, rfl⟩ := exists_last hts
  obtain ⟨o, us, rfl, ho, -, hus⟩ := exists_first hinner
  obtain ⟨y, hy, hread⟩ := h hus
  refine ⟨y, hy, fun c p l₀ u z s hc _ _ => exists_expression ?_⟩
  have hend : (⟨k.line, k :: u⟩ : Spot).Over c.delimit :=
    Spot.over_of_kind (by rw [kind_of_word hk]; rfl) (by simp [kind_of_word hk, marked])
  obtain ⟨n, hn⟩ := hread c.delimit o.endLine (k :: u) hc.delimit hend
  rw [List.append_assoc]
  exact ⟨n, .group (isPunctuation_of_marked ho) hn (isPunctuation_of_marked hk)⟩

theorem Tight.unary {op : UnaryOp} (h : Tight r P is x) :
    Loose r P (.word (operated style op.operator) :: is) (.unary t op x) := by
  intro ts l l' hts
  obtain ⟨o, us, rfl, ho, -, hus⟩ := exists_first hts
  obtain ⟨y, hy, hread⟩ := h hus
  refine ⟨.unary o op y, .unary hy, fun c l₀ u hc hend =>
    exists_expression ?_ ⟨0, .stop hend.link⟩⟩
  obtain ⟨n, hn⟩ := hread c Operator.not.precedence o.endLine u y _ hc (by decide) hend.unnamed
    ⟨0, .stop (link?_mono (Nat.zero_le _) hend.link)⟩
  exact ⟨n, .unary (kind_of_word ho) hn⟩

theorem Bracketed.array (h : Bracketed .closeBrace r q is xs) :
    Tight r (fun _ => q) (.word (marked .openBrace) :: is) (.array t xs) := by
  intro ts l l' hts
  obtain ⟨o, us, rfl, ho, -, hus⟩ := exists_first hts
  obtain ⟨ys, hys, hread⟩ := h hus
  refine ⟨.array o ys, .array hys, fun c p l₀ u z s hc _ _ => exists_expression ?_⟩
  obtain ⟨n, hn⟩ := hread c o.endLine u hc
  exact ⟨n, .array (isPunctuation_of_marked ho) hn⟩

theorem tight_ownMember {n m : Name} (ht : t.isPunctuation .colonColon = true)
    (hn : n.isSelf = true) :
    Tight r P [.word (marked .colonColon), .word (.identifier, m.text)]
      (.member t (.name n) m) := by
  intro ts l l' hts
  obtain ⟨o, us, rfl, ho, -, hus⟩ := exists_first hts
  obtain ⟨k, rfl, hk, -, rfl⟩ := exists_single hus
  have hsign := isPunctuation_of_marked ho
  refine ⟨.member o (.name ⟨.implied (.keyword .kwSelf) "Self" o⟩) ⟨k⟩,
    .ownMember ht hsign hn (Name.isSelf_implied o) (literal_of_word hk).symm,
    fun c p l₀ u z s _ _ _ => exists_expression ⟨0, ?_⟩⟩
  exact .ownMember hsign (kind_of_word hk)

/-! ### Links -/

/-- Between two operands nothing stands that could be a name. -/
theorem unnamed_operated {o : Operator} (ht : t.word = operated style o) :
    (⟨l, t :: u⟩ : Spot).Unnamed :=
  Spot.unnamed_of_kind (by simp [kind_of_word ht, operated])

theorem unnamed_marked {o : Punctuation} (ht : t.word = marked o) :
    (⟨l, t :: u⟩ : Spot).Unnamed :=
  Spot.unnamed_of_kind (by simp [kind_of_word ht, marked])

theorem Tight.binary {op : BinaryOp} (hx : Tight r P is x) (hy : Tight r Q js y) :
    Loose r (fun d => P d && Q d) (is ++ .word (operated style op.operator) :: js)
      (.binary t op x y) := by
  intro ts l l' hts
  obtain ⟨us, o, us', rfl, ho, hus, hus'⟩ := exists_around hts
  obtain ⟨x', hx', hleft⟩ := hx hus
  obtain ⟨y', hy', hright⟩ := hy hus'
  refine ⟨.binary o op x' y', .binary hx' hy', fun c l₀ u hc hend => ?_⟩
  have hop : op.operator.precedence < Link.call.precedence := by cases op <;> decide
  obtain ⟨n, hn⟩ := hright c op.operator.precedence o.endLine u y' _ hc.right hop hend.unnamed
    ⟨0, .stop (link?_mono (Nat.zero_le _) hend.link)⟩
  rw [List.append_assoc]
  exact hleft c loosest l₀ (o :: us' ++ u) _ _ hc.left (by decide) (unnamed_operated ho)
    ⟨n + 1, .binary (link?_binary (kind_of_word ho) op.operator.loosest_lt rfl) hn
      (.stop hend.link)⟩

theorem Tight.assign (hx : Tight r P is x) (hassign : x.isAssignable = true)
    (hy : Loose r Q js y) :
    Loose r (fun d => P d && Q d) (is ++ .word (operated style .assign) :: js)
      (.assign t x y) := by
  intro ts l l' hts
  obtain ⟨us, o, us', rfl, ho, hus, hus'⟩ := exists_around hts
  obtain ⟨x', hx', hleft⟩ := hx hus
  obtain ⟨y', hy', hright⟩ := hy hus'
  refine ⟨.assign o x' y', .assign hx' hy', fun c l₀ u hc hend => ?_⟩
  obtain ⟨n, hn⟩ := hright c o.endLine u hc.right hend
  rw [List.append_assoc]
  exact hleft c loosest l₀ (o :: us' ++ u) _ _ hc.left (by decide) (unnamed_operated ho)
    ⟨n + 1, .assign (link?_assign (kind_of_word ho) (by decide) rfl)
      ((Part.Same.isAssignable hx').trans hassign) hn (.stop hend.link)⟩

theorem Tight.call (hx : Tight r P is x) (hxs : Bracketed .closeParen r q js xs) :
    Tight r (fun d => P d && q) (is ++ .word (marked .openParen) :: js) (.call t x xs) := by
  intro ts l l' hts
  obtain ⟨us, o, us', rfl, ho, hus, hus'⟩ := exists_around hts
  obtain ⟨x', hx', hleft⟩ := hx hus
  obtain ⟨ys, hys, hinner⟩ := hxs hus'
  refine ⟨.call o x' ys, .call hx' hys, fun c p l₀ u z s hc hp hu hlinks => ?_⟩
  obtain ⟨m, hm⟩ := hlinks
  obtain ⟨n, hn⟩ := hinner c o.endLine u hc.right
  have hlink : Link.ofKind? o.kind = some .call := by rw [kind_of_word ho]; rfl
  rw [List.append_assoc]
  exact hleft c p l₀ (o :: us' ++ u) z s hc.left hp (unnamed_marked ho)
    ⟨max m n + 1, .call (link?_of_kind hlink hp rfl) (hn.mono (le_max_right ..))
      (hm.mono (le_max_left ..))⟩

theorem Tight.index (hx : Tight r P is x) (hy : Loose r Q js y) :
    Tight r (fun d => P d && Q true)
      (is ++ .word (marked .openBracket) :: (js ++ [.word (marked .closeBracket)]))
      (.index t x y) := by
  intro ts l l' hts
  obtain ⟨us, o, _, rfl, ho, hus, hbehind⟩ := exists_around hts
  obtain ⟨us', k, rfl, hk, hus', rfl⟩ := exists_last hbehind
  obtain ⟨x', hx', hleft⟩ := hx hus
  obtain ⟨y', hy', hinner⟩ := hy hus'
  refine ⟨.index o x' y', .index hx' hy', fun c p l₀ u z s hc hp hu hlinks => ?_⟩
  obtain ⟨m, hm⟩ := hlinks
  have hend : (⟨k.line, k :: u⟩ : Spot).Over c.delimit :=
    Spot.over_of_kind (by rw [kind_of_word hk]; rfl) (by simp [kind_of_word hk, marked])
  obtain ⟨n, hn⟩ := hinner c.delimit o.endLine (k :: u) hc.right.delimit hend
  have hlink : Link.ofKind? o.kind = some .index := by rw [kind_of_word ho]; rfl
  have hclosed : Derives false m (.links c p (some o) (.index o x' y') z) ⟨k.line, k :: u⟩ s :=
    .closeIndex (isPunctuation_of_marked hk) hm
  rw [List.append_assoc, List.cons_append, List.append_assoc]
  exact hleft c p l₀ (o :: (us' ++ k :: u)) z s hc.left hp (unnamed_marked ho)
    ⟨max m n + 1, .index (link?_of_kind hlink hp rfl) (hn.mono (le_max_right ..))
      (hclosed.mono (le_max_left ..))⟩

theorem Tight.member {m : Name} (ht : t.isPunctuation .colonColon = false)
    (hx : Tight r P is x) :
    Tight r P (is ++ [.word (marked .colon), .word (.identifier, m.text)]) (.member t x m) := by
  intro ts l l' hts
  obtain ⟨us, o, _, rfl, ho, hus, hbehind⟩ := exists_around hts
  obtain ⟨k, rfl, hk, -, rfl⟩ := exists_single hbehind
  obtain ⟨x', hx', hleft⟩ := hx hus
  have hcolon : o.isPunctuation .colonColon = false := by
    simp [Token.isPunctuation, kind_of_word ho, marked]
  refine ⟨.member o x' ⟨k⟩, .member ht hcolon hx' (literal_of_word hk).symm,
    fun c p l₀ u z s hc hp hu hlinks => ?_⟩
  obtain ⟨n, hn⟩ := hlinks
  have hlink : Link.ofKind? o.kind = some .member := by rw [kind_of_word ho]; rfl
  rw [List.append_assoc]
  exact hleft c p l₀ ([o, k] ++ u) z s hc hp (unnamed_marked ho)
    ⟨n + 1, .member (link?_of_kind hlink hp rfl) (kind_of_word hk) hn⟩

/-! ### Lists of expressions -/

theorem Loose.row (h : Loose r P is x) : LooseRow r (P true) is [x] := by
  intro ts l l' hts
  obtain ⟨y, hy, hread⟩ := h hts
  refine ⟨[y], .expressions hy .noExpressions, fun c l₀ k u hc hk hname hcomma => ?_⟩
  obtain ⟨m, hm⟩ := hread c.delimit l₀ (k :: u) hc.delimit (Spot.over_of_kind hk hname)
  exact ⟨m, .lastExpression hm (by simp [Spot.next, hcomma])⟩

theorem Loose.row_cons (hx : Loose r P is x) (hxs : LooseRow r q js xs) :
    LooseRow r (P true && q) (is ++ .word (marked .comma) :: js) (x :: xs) := by
  intro ts l l' hts
  obtain ⟨us, o, us', rfl, ho, hus, hus'⟩ := exists_around hts
  obtain ⟨y, hy, hread⟩ := hx hus
  obtain ⟨ys, hys, hread'⟩ := hxs hus'
  refine ⟨y :: ys, .expressions hy hys, fun c l₀ k u hc hk hname hcomma => ?_⟩
  have hend : (⟨o.line, o :: (us' ++ k :: u)⟩ : Spot).Over c.delimit :=
    Spot.over_of_kind (by rw [kind_of_word ho]; rfl) (by simp [kind_of_word ho, marked])
  obtain ⟨m, hm⟩ := hread c.delimit l₀ (o :: (us' ++ k :: u)) hc.left.delimit hend
  obtain ⟨n, hn⟩ := hread' c o.endLine k u hc.right hk hname hcomma
  rw [List.append_assoc]
  exact ⟨max m n, .moreExpressions (hm.mono (le_max_left ..)) (isPunctuation_of_marked ho)
    (hn.mono (le_max_right ..))⟩

/-- A list of expressions begins as an operand does. -/
theorem Derives.row_begins {m : Nat} {s : Spot}
    (h : Derives false m (.expressions c ys) ⟨l, t :: u⟩ s) : ∃ st : Starter, st.Begins t := by
  cases h with
  | lastExpression h _ => exact h.begins
  | moreExpressions h _ _ => exact h.begins

theorem bracketed_nil (close : Punctuation) : Bracketed close r q [.word (marked close)] [] := by
  intro ts l l' hts
  obtain ⟨k, rfl, hk, -, rfl⟩ := exists_single hts
  exact ⟨[], .noExpressions, fun c l₀ u _ => ⟨0, .noArguments (isPunctuation_of_marked hk)⟩⟩

theorem LooseRow.bracketed {close : Punctuation} (h : LooseRow r q is xs)
    (hclose : closes close = true) : Bracketed close r q (is ++ [.word (marked close)]) xs := by
  have hcloser : Starter.ofKind? (.punctuation close) = none ∧
      Link.ofKind? (.punctuation close) = none ∧ close ≠ .comma := by
    revert hclose
    cases close <;> decide
  obtain ⟨hstart, hlink, hcomma⟩ := hcloser
  intro ts l l' hts
  obtain ⟨us, k, rfl, hk, hus, rfl⟩ := exists_last hts
  obtain ⟨ys, hys, hread⟩ := h hus
  refine ⟨ys, hys, fun c l₀ u hc => ?_⟩
  have hkind : k.kind = .punctuation close := kind_of_word hk
  obtain ⟨m, hm⟩ := hread c l₀ k u hc (hkind ▸ hlink) (by simp [hkind])
    (by simp [Token.isPunctuation, hkind, hcomma])
  -- The closing bracket does not come first, since no expression begins with it.
  have hopen : (⟨l₀, us ++ k :: u⟩ : Spot).next (·.isPunctuation close) = false := by
    cases hrest : us ++ k :: u with
    | nil => rfl
    | cons t v =>
        rw [hrest] at hm
        obtain ⟨st, hst⟩ := hm.row_begins
        rw [Spot.next, List.head?_cons, Option.any_some, Bool.eq_false_iff]
        intro ht
        have hkt : t.kind = .punctuation close := by simpa [Token.isPunctuation] using ht
        rw [← Starter.begins_iff, hkt, hstart] at hst
        cases hst
  rw [List.append_assoc]
  exact ⟨m, .arguments hopen hm (isPunctuation_of_marked hk)⟩

end Grammar

end Clipper
