import Clipper.Proofs.Faults.Nodes
import Clipper.Proofs.Grammar.Phrase

/-!
What becomes of every token of a text. Most words and signs say how the tree is built and
leave no trace in it; the others are the content of the text. Each token between two spots
bears a label that says which of them it is, and the labels follow the grammar.
-/

open scoped List

namespace Clipper

/-- Names, literals and operators. -/
def TokenKind.isContent : TokenKind → Bool
  | .identifier | .integer | .float | .string | .date | .operator _ => true
  | .keyword k => k == .kwSelf || k == .kwTrue || k == .kwFalse || k == .kwNil
  | _ => false

namespace Token

/-- The name of a counter again, behind the end of its loop. -/
def repeatsCounter (u t : Token) : Bool :=
  u.isKeyword .kwNext && t.kind == .identifier && t.line == u.endLine

/-- What can stand between a declared name and its value. -/
def isSign (t : Token) : Bool := t.isOperator .assign || t.isOperator .equal

theorem isSign_of_assign {t : Token} (h : t.isOperator .assign = true) : t.isSign = true := by
  rw [isSign, h, Bool.true_or]

theorem repeatsCounter_of_mark {u t : Token} (h : t.kind.isContent = false) :
    u.repeatsCounter t = false := by
  cases hk : t.kind <;> simp_all [TokenKind.isContent, repeatsCounter]

theorem isSign_of_mark {t : Token} (h : t.kind.isContent = false) : t.isSign = false := by
  cases hk : t.kind <;> simp_all [TokenKind.isContent, isSign, isOperator]

end Token

namespace Node

/-- The token that holds what a node adds to its parts. -/
def content? : Node → Option Token
  | name n => if n.token.span.isEmpty then none else some n.token
  | expression (.integer t _) | expression (.float t _) | expression (.string t _ _)
  | expression (.date t) | expression (.boolean t _) | expression (.nil t)
  | expression (.unary t _ _) | expression (.binary t _ _ _) | expression (.assign t _ _) => some t
  | _ => none

/-- The name of a variable or a counter, where it is declared. -/
def declared? : Node → Option Token
  | statement (.variable _ _ n _) => some n.token
  | expression (.forLoop _ n _ _ _ _ _) => some n.token
  | _ => none

@[simp] theorem content?_statement (s : Stmt) : (statement s).content? = none := rfl

@[simp] theorem declared?_name (n : Name) : (name n).declared? = none := rfl

end Node

/-- What the grammar takes a token for. -/
inductive Role
  | content
  /-- The name of a variable or a counter, where it is declared. -/
  | declared
  /-- The sign between a declared name and its value. -/
  | sign
  /-- The name of a counter behind the end of its loop. -/
  | again
  | mark
  deriving DecidableEq

structure Label where
  token : Token
  role : Role

namespace Label

def content? (a : Label) : Option Token :=
  if a.role = .content ∨ a.role = .declared then some a.token else none

def declared? (a : Label) : Option Token := if a.role = .declared then some a.token else none

/-- A label behind another one. Names of counters and signs are known by what precedes
them, and all content but these bears a label as such. -/
structure Fits (u a : Label) : Prop where
  again : a.role = .again ↔ u.token.repeatsCounter a.token = true
  sign : a.role = .sign ↔ u.role = .declared ∧ a.token.isSign = true
  mark : a.role = .mark ↔ a.token.kind.isContent = false

/-- Behind `u` come these labels, the last of them `v`, on the way between two spots. -/
inductive Path : Label → Spot → List Label → Label → Spot → Prop
  | nil : Path u s [] u s
  | cons : Fits u a → Path a ⟨a.token.endLine, ts⟩ as v s →
      Path u ⟨l, a.token :: ts⟩ (a :: as) v s

variable {u v w : Label} {s s' s'' : Spot} {as bs : List Label}

theorem Path.append (h : Path u s as v s') (h' : Path v s' bs w s'') :
    Path u s (as ++ bs) w s'' := by
  induction h with
  | nil => exact h'
  | cons hfit _ ih => exact .cons hfit (ih h')

theorem Path.tokens (h : Path u s as v s') : s.rest = as.map token ++ s'.rest := by
  induction h with
  | nil => rfl
  | cons _ _ ih => simpa using ih

/-- The spot lies behind this label, and what comes next does not repeat a counter. -/
structure Before (u : Label) (s : Spot) : Prop where
  line : u.token.endLine = s.line
  quiet : s.next u.token.repeatsCounter = false

namespace Before

variable {t : Token} {r : Role} {ts : List Token}

/-- Only behind the end of a loop a counter can be repeated. -/
theorem of_kind {k : TokenKind} (ht : t.kind = k) (hk : (k != .keyword .kwNext) = true) :
    Before ⟨t, r⟩ ⟨t.endLine, ts⟩ := by
  have hnext : t.isKeyword .kwNext = false := by simpa [Token.isKeyword, ht] using hk
  refine ⟨rfl, ?_⟩
  cases ts <;> simp [Spot.next, Token.repeatsCounter, hnext]

theorem punctuation {p : Punctuation} (ht : t.isPunctuation p = true) :
    Before ⟨t, r⟩ ⟨t.endLine, ts⟩ :=
  of_kind (by simpa [Token.isPunctuation] using ht) rfl

theorem keyword {k : Keyword} (ht : t.isKeyword k = true)
    (hk : (TokenKind.keyword k != .keyword .kwNext) = true) :
    Before ⟨t, r⟩ ⟨t.endLine, ts⟩ :=
  of_kind (by simpa [Token.isKeyword] using ht) hk

theorem sign (ht : t.isSign = true) : Before ⟨t, r⟩ ⟨t.endLine, ts⟩ := by
  have hkind : t.kind = .operator .assign ∨ t.kind = .operator .equal := by
    simpa [Token.isSign, Token.isOperator] using ht
  exact hkind.elim (of_kind · rfl) (of_kind · rfl)

end Before

end Label

namespace Grammar

open Label

/-- Between two spots, with `u` before the one and `v` before the other, these nodes are
read: their content is the content of the tokens there. -/
structure Conserves (ns : List Node) (u : Label) (s : Spot) (v : Label) (s' : Spot) : Prop where
  before : Before v s'
  path : ∃ as, Path u s as v s' ∧
    ((∀ a ∈ as, a.token.span.isEmpty = false) →
      as.filterMap Label.content? ~ ns.filterMap Node.content?) ∧
    ∀ t, t ∈ as.filterMap Label.declared? ↔ t ∈ ns.filterMap Node.declared?

namespace Conserves

variable {u v w : Label} {s s' s'' : Spot} {ns ms : List Node} {t : Token} {l : Nat}
  {ts : List Token}

theorem refl (h : Before u s) : Conserves [] u s u s := ⟨h, [], .nil, by simp, by simp⟩

theorem trans (h : Conserves ns u s v s') (h' : Conserves ms v s' w s'') :
    Conserves (ns ++ ms) u s w s'' := by
  obtain ⟨as, hpath, hcontent, hdeclared⟩ := h.path
  obtain ⟨bs, hpath', hcontent', hdeclared'⟩ := h'.path
  refine ⟨h'.before, as ++ bs, hpath.append hpath', fun hwritten => ?_, fun t => ?_⟩
  · rw [List.filterMap_append, List.filterMap_append]
    exact (hcontent fun a ha => hwritten a (List.mem_append_left _ ha)).append
      (hcontent' fun a ha => hwritten a (List.mem_append_right _ ha))
  · rw [List.filterMap_append, List.filterMap_append, List.mem_append, List.mem_append,
      hdeclared, hdeclared']

/-- Only the content of the nodes and the declared names among them matter. -/
theorem congr (h : Conserves ns u s v s')
    (hcontent : ns.filterMap Node.content? ~ ms.filterMap Node.content?)
    (hdeclared : ns.filterMap Node.declared? ~ ms.filterMap Node.declared?) :
    Conserves ms u s v s' := by
  obtain ⟨as, hpath, hc, hd⟩ := h.path
  exact ⟨h.before, as, hpath, fun hwritten => (hc hwritten).trans hcontent,
    fun t => (hd t).trans hdeclared.mem_iff⟩

theorem perm (h : Conserves ns u s v s') (hperm : ns ~ ms) : Conserves ms u s v s' :=
  h.congr (hperm.filterMap _) (hperm.filterMap _)

/-- A node without content of its own. -/
theorem concat (h : Conserves ns u s v s') {n : Node} (hcontent : n.content? = none)
    (hdeclared : n.declared? = none) : Conserves (ns ++ [n]) u s v s' :=
  h.congr (by simp [hcontent]) (by simp [hdeclared])

theorem single {a : Label} (hfit : Fits u a) (hbefore : Before a ⟨a.token.endLine, ts⟩)
    (hcontent : a.token.span.isEmpty = false → a.content?.toList ~ ns.filterMap Node.content?)
    (hdeclared : a.declared?.toList ~ ns.filterMap Node.declared?) :
    Conserves ns u ⟨l, a.token :: ts⟩ a ⟨a.token.endLine, ts⟩ := by
  refine ⟨hbefore, [a], .cons hfit .nil, fun hwritten => ?_, fun t => ?_⟩
  · rw [List.filterMap_cons, List.filterMap_nil]
    have := hcontent (hwritten a (by simp))
    cases h : a.content? <;> simpa [h] using this
  · rw [List.filterMap_cons, List.filterMap_nil, ← hdeclared.mem_iff]
    cases h : a.declared? <;> simp

/-- A word or a sign that leaves no trace in the tree. -/
theorem mark (ht : t.kind.isContent = false) (hbefore : Before ⟨t, .mark⟩ ⟨t.endLine, ts⟩) :
    Conserves [] u ⟨l, t :: ts⟩ ⟨t, .mark⟩ ⟨t.endLine, ts⟩ := by
  refine single (a := ⟨t, .mark⟩) ⟨?_, ?_, by simp [ht]⟩ hbefore (fun _ => .refl _) (.refl _)
  · simp [Token.repeatsCounter_of_mark ht]
  · simp [Token.isSign_of_mark ht]

theorem punctuation {p : Punctuation} (ht : t.isPunctuation p = true) :
    Conserves [] u ⟨l, t :: ts⟩ ⟨t, .mark⟩ ⟨t.endLine, ts⟩ := by
  have hk : t.kind = .punctuation p := by simpa [Token.isPunctuation] using ht
  exact mark (by simp [hk, TokenKind.isContent]) (.punctuation ht)

/-- A word that only says how the tree is built. -/
theorem keyword {k : Keyword} (ht : t.isKeyword k = true)
    (hk : (TokenKind.keyword k).isContent = false)
    (hnext : (TokenKind.keyword k != .keyword .kwNext) = true) :
    Conserves [] u ⟨l, t :: ts⟩ ⟨t, .mark⟩ ⟨t.endLine, ts⟩ := by
  have hkind : t.kind = .keyword k := by simpa [Token.isKeyword] using ht
  exact mark (by rw [hkind, hk]) (.keyword ht hnext)

/-- A name, a literal or an operator that is not the sign behind a declared name. -/
theorem leaf {n : Node} (hu : Before u ⟨l, t :: ts⟩) (ht : t.kind.isContent = true)
    (hsign : u.role ≠ .declared ∨ t.isSign = false)
    (hcontent : t.span.isEmpty = false → n.content? = some t)
    (hdeclared : n.declared? = none) :
    Conserves [n] u ⟨l, t :: ts⟩ ⟨t, .content⟩ ⟨t.endLine, ts⟩ := by
  have hquiet : u.token.repeatsCounter t = false := hu.quiet
  have hbefore : Before ⟨t, .content⟩ ⟨t.endLine, ts⟩ := by
    refine .of_kind rfl ?_
    rw [bne_iff_ne]
    intro hk
    simp [hk, TokenKind.isContent] at ht
  refine single (a := ⟨t, .content⟩) ⟨by simp [hquiet], ?_, by simp [ht]⟩ hbefore (fun hw => ?_) ?_
  · simp only [reduceCtorEq, false_iff, not_and, Bool.not_eq_true]
    exact fun hrole => hsign.resolve_left (not_not_intro hrole)
  · simp [Label.content?, hcontent hw]
  · simp [Label.declared?, hdeclared]

theorem name (hu : Before u ⟨l, t :: ts⟩) (ht : t.kind = .identifier) :
    Conserves [.name ⟨t⟩] u ⟨l, t :: ts⟩ ⟨t, .content⟩ ⟨t.endLine, ts⟩ :=
  leaf hu (by simp [TokenKind.isContent, ht]) (.inr (by simp [Token.isSign, Token.isOperator, ht]))
    (fun hw => if_neg (by simpa using hw)) rfl

theorem self (hu : Before u ⟨l, t :: ts⟩) (ht : t.kind = .keyword .kwSelf) :
    Conserves [.name ⟨t⟩] u ⟨l, t :: ts⟩ ⟨t, .content⟩ ⟨t.endLine, ts⟩ :=
  leaf hu (by simp [TokenKind.isContent, ht]) (.inr (by simp [Token.isSign, Token.isOperator, ht]))
    (fun hw => if_neg (by simpa using hw)) rfl

/-- The name of a variable or a counter, where it is declared. -/
theorem declared (hu : Before u ⟨l, t :: ts⟩) (ht : t.kind = .identifier) :
    Conserves (Nodes.stmt (.variable t .localVar ⟨t⟩ none)) u ⟨l, t :: ts⟩ ⟨t, .declared⟩
      ⟨t.endLine, ts⟩ := by
  have hquiet : u.token.repeatsCounter t = false := hu.quiet
  refine single (a := ⟨t, .declared⟩) ⟨by simp [hquiet], ?_, ?_⟩ (.of_kind ht rfl) (fun hw => ?_) ?_
  · simp [Token.isSign, Token.isOperator, ht]
  · simp [TokenKind.isContent, ht]
  · have hname : (Node.name ⟨t⟩).content? = some t := if_neg (by simpa using hw)
    simp [Label.content?, Nodes.stmt, Nodes.ifAny, List.filterMap_cons, hname]
  · exact .refl [t]

/-- A declared name with the sign behind it. -/
theorem signed {n sign : Token} (hu : Before u ⟨l, n :: sign :: ts⟩) (hn : n.kind = .identifier)
    (hsign : sign.isSign = true) :
    Conserves (Nodes.stmt (.variable n .localVar ⟨n⟩ none)) u ⟨l, n :: sign :: ts⟩ ⟨sign, .sign⟩
      ⟨sign.endLine, ts⟩ := by
  have hkind : sign.kind = .operator .assign ∨ sign.kind = .operator .equal := by
    simpa [Token.isSign, Token.isOperator] using hsign
  have hfit : Fits ⟨n, .declared⟩ ⟨sign, .sign⟩ := by
    refine ⟨?_, by simp [hsign], ?_⟩
    · rcases hkind with hk | hk <;> simp [Token.repeatsCounter, hk]
    · rcases hkind with hk | hk <;> simp [TokenKind.isContent, hk]
  have h : Conserves [] ⟨n, .declared⟩ ⟨n.endLine, sign :: ts⟩ ⟨sign, .sign⟩ ⟨sign.endLine, ts⟩ :=
    single (a := ⟨sign, .sign⟩) hfit (.sign hsign) (fun _ => .refl _) (.refl _)
  exact (declared hu hn).trans h

/-- The end of a loop with the name of its counter, if that follows. -/
theorem next {lax : Bool} {k n : Token} (hk : k.isKeyword .kwNext = true)
    (h : CounterAgain lax n ⟨k.endLine, ts⟩ s') :
    ∃ v, v.role ≠ .declared ∧ Conserves [] u ⟨l, k :: ts⟩ v s' := by
  have hkind : k.kind = .keyword .kwNext := by simpa [Token.isKeyword] using hk
  have hfit : Fits u ⟨k, .mark⟩ := by
    refine ⟨?_, ?_, ?_⟩ <;> simp [Token.repeatsCounter, Token.isSign, Token.isOperator,
      TokenKind.isContent, hkind]
  cases h with
  | absent hnext =>
      have hquiet : (⟨k.endLine, ts⟩ : Spot).next k.repeatsCounter = false := by
        rw [← hnext, Spot.next, Spot.next]
        congr 1
        funext t
        simp [Token.repeatsCounter, hk]
      exact ⟨⟨k, .mark⟩, by simp, ⟨rfl, hquiet⟩, [⟨k, .mark⟩], .cons hfit .nil, by
        simp [Label.content?], by simp [Label.declared?]⟩
  | @named _ t us hname hline _ =>
      have hrepeats : k.repeatsCounter t = true := by
        simp [Token.repeatsCounter, hk, hname, hline]
      have hfit' : Fits ⟨k, .mark⟩ ⟨t, .again⟩ := by
        refine ⟨by simp [hrepeats], ?_, ?_⟩ <;>
          simp [Token.isSign, Token.isOperator, TokenKind.isContent, hname]
      refine ⟨⟨t, .again⟩, by simp, .of_kind hname rfl, [⟨k, .mark⟩, ⟨t, .again⟩],
        .cons hfit (.cons hfit' .nil), ?_, ?_⟩
      · simp [Label.content?]
      · simp [Label.declared?]

end Conserves

end Grammar

end Clipper
