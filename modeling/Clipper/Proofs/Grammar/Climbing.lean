import Clipper.Proofs.Grammar.Completeness.Program
import Clipper.Proofs.Rendering.Leaves

/-!
Precedence climbing. A sequence of operands with operators between them has exactly one tree
in which every operator binds as its precedence says, and that is the tree that is read. The
trees are described without the reader: by what stands between which operands.
-/

namespace Clipper

/-- The operator between the two operands of a tree, if it has two. -/
def Expr.top? : Expr → Option Operator
  | .binary _ op _ _ => some op.operator
  | .assign _ _ _ => some .assign
  | _ => none

theorem Operator.loosest_lt (o : Operator) : Grammar.loosest < o.precedence := by
  cases o <;> decide

namespace BinaryOp

variable (op : BinaryOp)

theorem assign_lt : Operator.assign.precedence < op.operator.precedence := by
  cases op <;> decide

theorem lt_not : op.operator.precedence < Operator.not.precedence := by
  cases op <;> decide

theorem ne_assign : op.operator ≠ .assign := by
  cases op <;> decide

end BinaryOp

namespace Grammar

/-! ### Sequences of tokens -/

/-- A name or a literal. An integer has 64 bits with a sign. -/
inductive Atom : Token → Prop
  | name : t.kind = .identifier → Atom t
  | integer : t.kind = .integer → Binary64.ofDigits t.literal.toList < integerBound → Atom t
  | float : t.kind = .float → Atom t
  | string : t.kind = .string → Atom t
  | date : t.kind = .date → Atom t
  | boolean {value : Bool} : t.kind = .keyword (if value then .kwTrue else .kwFalse) → Atom t
  | nil : t.kind = .keyword .kwNil → Atom t

/-- Any number of operators that stand before an operand, and a name or a literal. -/
inductive Operand : List Token → Prop
  | atom : Atom t → Operand [t]
  | unary (op : UnaryOp) : t.kind = .operator op.operator → Operand ts → Operand (t :: ts)

/-- Operands with operators between them. -/
inductive Operands : List Token → Prop
  | one : Operand ts → Operands ts
  | binary (op : BinaryOp) : Operand ts → t.kind = .operator op.operator → Operands us →
      Operands (ts ++ t :: us)

/-- Any number of names that are assigned to, and what is assigned to them. -/
inductive Sequence : List Token → Prop
  | operands : Operands ts → Sequence ts
  | assign : n.kind = .identifier → t.kind = .operator .assign → Sequence ts →
      Sequence (n :: t :: ts)

/-! ### Their trees -/

/-- The tree of a name or a literal. -/
inductive AtomTree : Expr → Token → Prop
  | name : t.kind = .identifier → AtomTree (.name ⟨t⟩) t
  | integer : t.kind = .integer → Binary64.ofDigits t.literal.toList < integerBound →
      AtomTree (.integer t (Binary64.ofDigits t.literal.toList)) t
  | float : t.kind = .float → Binary64.ofDecimal? t.literal.toList = some bits →
      AtomTree (.float t bits) t
  | string : t.kind = .string →
      AtomTree (.string t (Literal.stringParts t.literal).1 (Literal.stringParts t.literal).2) t
  | date : t.kind = .date → AtomTree (.date t) t
  | boolean : t.kind = .keyword (if value then .kwTrue else .kwFalse) →
      AtomTree (.boolean t value) t
  | nil : t.kind = .keyword .kwNil → AtomTree (.nil t) t

/-- A tree whose operators each stand before the one operand they apply to. -/
inductive OperandTree : Expr → List Token → Prop
  | atom : AtomTree x t → OperandTree x [t]
  | unary : t.kind = .operator op.operator → OperandTree x ts →
      OperandTree (.unary t op x) (t :: ts)

/-- A tree of the tokens, from left to right, in which the operator at the top of a right
operand binds tighter than the one above it, and that of a left operand no less tight.
Assignments nest to the right. -/
inductive Climbs : Expr → List Token → Prop
  | operand : OperandTree x ts → Climbs x ts
  | binary {t : Token} {op : BinaryOp} {x y : Expr} {ts us : List Token} :
      t.kind = .operator op.operator → Climbs x ts → Climbs y us →
      (∀ o ∈ x.top?, op.operator.precedence ≤ o.precedence) →
      (∀ o ∈ y.top?, op.operator.precedence < o.precedence) →
      Climbs (.binary t op x y) (ts ++ t :: us)
  | assign {n t : Token} {y : Expr} {ts : List Token} :
      n.kind = .identifier → t.kind = .operator .assign → Climbs y ts →
      Climbs (.assign t (.name ⟨n⟩) y) (n :: t :: ts)

/-! ### There is a tree -/

section Existence

variable {t : Token} {ts us : List Token} {x y : Expr}

theorem OperandTree.top?_eq_none (h : OperandTree x ts) : x.top? = none := by
  cases h with
  | atom h => cases h <;> rfl
  | unary _ _ => rfl

/-- An operand is put in front of a tree, below all operators that bind no tighter than the
one behind the operand. -/
theorem Climbs.exists_prepended {x₀ : Expr} {op : BinaryOp} (h₀ : OperandTree x₀ ts)
    (ht : t.kind = .operator op.operator) (h : Climbs x us) (hassign : x.top? ≠ some .assign) :
    ∃ y, Climbs y (ts ++ t :: us) ∧ y.top? ≠ some .assign ∧
      ∀ p, p ≤ op.operator.precedence → (∀ o ∈ x.top?, p ≤ o.precedence) →
        ∀ o ∈ y.top?, p ≤ o.precedence := by
  -- Where all operators of the tree bind tighter, the new one is put on top.
  have htop : ∀ {x us}, Climbs x us → (∀ o ∈ x.top?, op.operator.precedence < o.precedence) →
      Climbs (.binary t op x₀ x) (ts ++ t :: us) := fun h hx =>
    .binary ht (.operand h₀) h (by simp [h₀.top?_eq_none]) hx
  have hne : ∀ op : BinaryOp, some op.operator ≠ some Operator.assign := fun op h =>
    op.ne_assign (Option.some.inj h)
  induction h with
  | operand h =>
      refine ⟨_, htop (.operand h) (by simp [h.top?_eq_none]), hne op, fun p hp _ o ho => ?_⟩
      obtain rfl := Option.some.inj ho
      exact hp
  | assign => exact absurd rfl hassign
  | @binary t' op' x y ts' us' ht' hx hy hleft hright ih _ =>
      by_cases hlt : op.operator.precedence < op'.operator.precedence
      · refine ⟨_, htop (.binary ht' hx hy hleft hright) ?_, hne op, fun p hp _ o ho => ?_⟩
        · rintro o ho
          obtain rfl := Option.some.inj ho
          exact hlt
        · obtain rfl := Option.some.inj ho
          exact hp
      · have hxassign : x.top? ≠ some .assign := fun hx =>
          absurd (hleft _ hx) (Nat.not_le.mpr op'.assign_lt)
        obtain ⟨z, hz, -, hbound⟩ := ih hxassign
        refine ⟨.binary t' op' z y, ?_, hne op', fun p _ hx o ho => hx o ho⟩
        rw [← List.cons_append, ← List.append_assoc]
        exact .binary ht' hz hy (hbound _ (Nat.not_lt.mp hlt) hleft) hright

theorem Atom.exists_tree (h : Atom t)
    (hfloat : t.kind = .float → ∃ bits, Binary64.ofDecimal? t.literal.toList = some bits) :
    ∃ x, AtomTree x t := by
  cases h with
  | name ht => exact ⟨_, .name ht⟩
  | integer ht hbound => exact ⟨_, .integer ht hbound⟩
  | float ht =>
      obtain ⟨_, hbits⟩ := hfloat ht
      exact ⟨_, .float ht hbits⟩
  | string ht => exact ⟨_, .string ht⟩
  | date ht => exact ⟨_, .date ht⟩
  | boolean ht => exact ⟨_, .boolean ht⟩
  | nil ht => exact ⟨_, .nil ht⟩

/-- Every number with a point in it can be read. -/
abbrev Decimals (ts : List Token) : Prop :=
  ∀ t ∈ ts, t.kind = .float → ∃ bits, Binary64.ofDecimal? t.literal.toList = some bits

theorem Operand.exists_tree (h : Operand ts) (hfloat : Decimals ts) : ∃ x, OperandTree x ts := by
  induction h with
  | atom h =>
      obtain ⟨x, hx⟩ := h.exists_tree (hfloat _ List.mem_cons_self)
      exact ⟨x, .atom hx⟩
  | unary _ ht _ ih =>
      obtain ⟨x, hx⟩ := ih fun t ht => hfloat t (List.mem_cons_of_mem _ ht)
      exact ⟨_, .unary ht hx⟩

theorem Operands.exists_tree (h : Operands ts) (hfloat : Decimals ts) :
    ∃ x, Climbs x ts ∧ x.top? ≠ some .assign := by
  induction h with
  | one h =>
      obtain ⟨x, hx⟩ := h.exists_tree hfloat
      exact ⟨x, .operand hx, by simp [hx.top?_eq_none]⟩
  | binary _ h ht _ ih =>
      obtain ⟨x₀, h₀⟩ := h.exists_tree fun t ht => hfloat t (List.mem_append_left _ ht)
      obtain ⟨x, hx, hassign⟩ := ih fun t ht =>
        hfloat t (List.mem_append_right _ (List.mem_cons_of_mem _ ht))
      obtain ⟨y, hy, hassign, -⟩ := hx.exists_prepended h₀ ht hassign
      exact ⟨y, hy, hassign⟩

theorem Sequence.exists_tree (h : Sequence ts) (hfloat : Decimals ts) : ∃ x, Climbs x ts := by
  induction h with
  | operands h =>
      obtain ⟨x, hx, -⟩ := h.exists_tree hfloat
      exact ⟨x, hx⟩
  | assign hn ht _ ih =>
      obtain ⟨x, hx⟩ := ih fun t ht =>
        hfloat t (List.mem_cons_of_mem _ (List.mem_cons_of_mem _ ht))
      exact ⟨_, .assign hn ht hx⟩

end Existence

/-! ### The tree is read -/

/-- Each token begins on the line on which the one before it ends. -/
inductive Strung : Nat → List Token → Nat → Prop
  | nil : Strung l [] l
  | cons : t.line = l → Strung t.endLine ts l' → Strung l (t :: ts) l'

theorem Strung.split {l l' : Nat} {ts us : List Token} (h : Strung l (ts ++ us) l') :
    ∃ k, Strung l ts k ∧ Strung k us l' := by
  induction ts generalizing l with
  | nil => exact ⟨l, .nil, h⟩
  | cons t ts ih =>
      cases h with
      | cons hl h =>
          obtain ⟨k, hts, hus⟩ := ih h
          exact ⟨k, .cons hl hts, hus⟩

theorem exists_strung {t : Token} {ts : List Token}
    (h : List.IsChain (fun t u : Token => u.line = t.endLine) (t :: ts)) :
    ∃ l, Strung t.line (t :: ts) l := by
  induction ts generalizing t with
  | nil => exact ⟨_, .cons rfl .nil⟩
  | cons u us ih =>
      obtain ⟨hline, h⟩ := List.isChain_cons_cons.mp h
      obtain ⟨l, hl⟩ := ih h
      exact ⟨l, .cons rfl (hline ▸ hl)⟩

/-! ### Links -/

section Links

variable {c : Context} {p q l : Nat} {s : Spot} {t : Token} {u : List Token} {op : BinaryOp}

theorem link?_mono (hle : p ≤ q) (h : s.link? c p = none) : s.link? c q = none := by
  rw [Spot.link?] at *
  cases hhead : s.rest.head? with
  | none => rfl
  | some t =>
      rw [hhead, Option.bind_some] at h
      rw [Option.bind_some]
      cases hk : Link.ofKind? t.kind with
      | none => rfl
      | some lk =>
          rw [hk, Option.filter_some, ite_eq_right_iff] at h
          rw [Option.filter_some, ite_eq_right_iff]
          intro hq
          rw [Bool.and_eq_true, decide_eq_true_eq] at hq
          exact h (by rw [Bool.and_eq_true, decide_eq_true_eq]; exact ⟨hle.trans_lt hq.1, hq.2⟩)

theorem Link.ofKind?_binary : Link.ofKind? (.operator op.operator) = some (.binary op) := by
  cases op <;> rfl

theorem link?_binary (ht : t.kind = .operator op.operator) (hp : p < op.operator.precedence)
    (hline : t.line = l) : (⟨l, t :: u⟩ : Spot).link? c p = some (.binary op) :=
  link?_of_kind (by rw [ht, Link.ofKind?_binary]) hp hline

theorem link?_binary_none (ht : t.kind = .operator op.operator)
    (hp : op.operator.precedence ≤ p) : (⟨l, t :: u⟩ : Spot).link? c p = none := by
  have hk : Link.ofKind? t.kind = some (.binary op) := by rw [ht, Link.ofKind?_binary]
  exact link?_loose hk hp

theorem link?_assign (ht : t.kind = .operator .assign) (hp : p < Operator.assign.precedence)
    (hline : t.line = l) : (⟨l, t :: u⟩ : Spot).link? c p = some .assign :=
  link?_of_kind (by rw [ht]; rfl) hp hline

theorem link?_end (ht : t.isEnd = true) : (⟨l, t :: u⟩ : Spot).link? c p = none := by
  have hk : t.kind = .endOfInput := by simpa [Token.isEnd] using ht
  exact link?_other (by rw [hk]; rfl)

end Links

/-! ### The tree is read -/

section Legal

variable {t : Token} {ts : List Token} {x : Expr}

theorem AtomTree.legal (h : AtomTree x t) : t.isIllegal = false := by
  cases h <;> simp [Token.isIllegal, *]

theorem OperandTree.legal (h : OperandTree x ts) : ∀ t ∈ ts, t.isIllegal = false := by
  induction h with
  | atom h => simpa using h.legal
  | unary ht _ ih => exact List.forall_mem_cons.mpr ⟨by simp [Token.isIllegal, ht], ih⟩

theorem Climbs.legal (h : Climbs x ts) : ∀ t ∈ ts, t.isIllegal = false := by
  induction h with
  | operand h => exact h.legal
  | binary ht _ _ _ _ ih ih' =>
      exact List.forall_mem_append.mpr
        ⟨ih, List.forall_mem_cons.mpr ⟨by simp [Token.isIllegal, ht], ih'⟩⟩
  | assign hn ht _ ih =>
      exact List.forall_mem_cons.mpr ⟨by simp [Token.isIllegal, hn],
        List.forall_mem_cons.mpr ⟨by simp [Token.isIllegal, ht], ih⟩⟩

theorem Climbs.ne_nil (h : Climbs x ts) : ts ≠ [] := by
  cases h with
  | operand h => cases h <;> simp
  | binary => simp
  | assign => simp

end Legal

/-- How tightly a link has to bind to go on with the last operand of a tree. -/
def reach : Expr → Nat
  | .binary _ op _ _ => op.operator.precedence
  | .assign _ _ _ => loosest
  | _ => Operator.not.precedence

section Derivations

variable {c : Context} {p l l' l₀ : Nat} {s : Spot} {ts u : List Token} {x y : Expr}

theorem OperandTree.reach_eq (h : OperandTree x ts) : reach x = Operator.not.precedence := by
  cases h with
  | atom h => cases h <;> rfl
  | unary _ _ => rfl

/-- The operand of an operator that nothing looser than it is part of reaches at least as far. -/
theorem Climbs.le_reach {op : BinaryOp} (h : Climbs x ts)
    (hx : ∀ o ∈ x.top?, op.operator.precedence ≤ o.precedence) :
    op.operator.precedence ≤ reach x := by
  cases h with
  | operand h => exact h.reach_eq ▸ op.lt_not.le
  | binary => exact hx _ rfl
  | assign => exact absurd (hx _ rfl) (Nat.not_le.mpr op.assign_lt)

theorem AtomTree.derives {t : Token} (h : AtomTree x t) :
    Derives false 0 (.operand c x) ⟨l, t :: u⟩ ⟨t.endLine, u⟩ := by
  cases h with
  | name ht => exact .name (.inl ht)
  | integer ht hbound => exact .integer ht hbound
  | float ht hbits => exact .float ht hbits
  | string ht => exact .string ht
  | date ht => exact .date ht
  | boolean ht => exact .boolean ht
  | nil ht => exact .nil ht

theorem OperandTree.derives (h : OperandTree x ts) (hs : Strung l ts l')
    (hend : (⟨l', u⟩ : Spot).link? c Operator.not.precedence = none) :
    ∃ m, Derives false m (.operand c x) ⟨l₀, ts ++ u⟩ ⟨l', u⟩ := by
  induction h generalizing l l₀ with
  | atom h =>
      cases hs with
      | cons _ hs =>
          cases hs
          exact ⟨0, h.derives⟩
  | unary ht _ ih =>
      cases hs with
      | cons _ hs =>
          obtain ⟨m, hm⟩ := ih hs
          exact ⟨m + 1, .unary ht (.expression hm (.stop hend))⟩

/-- Where nothing behind a tree can go on with its last operand, the tree is read, and then
the links behind it. -/
theorem Climbs.derives (h : Climbs x ts) (hs : Strung l ts l')
    (hp : ∀ o ∈ x.top?, p < o.precedence)
    (hend : (⟨l', u⟩ : Spot).link? c (reach x) = none)
    (hlinks : ∃ m, Derives false m (.links c p none x y) ⟨l', u⟩ s) :
    ∃ m, Derives false m (.expression c p y) ⟨l₀, ts ++ u⟩ s := by
  induction h generalizing p l l' l₀ s u y with
  | operand h =>
      obtain ⟨m, hm⟩ := hlinks
      obtain ⟨n, hn⟩ := h.derives hs (h.reach_eq ▸ hend)
      exact ⟨max m n + 1, .expression (hn.mono (le_max_right ..)) (hm.mono (le_max_left ..))⟩
  | @binary t op a b ts us ht ha hb hleft hright iha ihb =>
      obtain ⟨k, hts, hs⟩ := hs.split
      have hpt : p < op.operator.precedence := hp _ rfl
      -- The left operand, and then the operator, which is not taken into it.
      rw [List.append_assoc]
      refine iha hts (fun o ho => Nat.lt_of_lt_of_le hpt (hleft o ho))
        (link?_binary_none ht (ha.le_reach hleft)) ?_
      cases hs with
      | cons hline hs =>
          obtain ⟨m, hm⟩ := hlinks
          obtain ⟨n, hn⟩ := ihb hs hright
            (link?_mono (hb.le_reach fun o ho => (hright o ho).le) hend) ⟨0, .stop hend⟩
          exact ⟨max m n + 1, .binary (link?_binary ht hpt hline) (hn.mono (le_max_right ..))
            (hm.mono (le_max_left ..))⟩
  | @assign n t b ts hn ht hb ihb =>
      cases hs with
      | cons _ hs =>
          cases hs with
          | cons hline hs =>
              obtain ⟨m, hm⟩ := hlinks
              obtain ⟨n, hb⟩ := ihb hs (fun o _ => o.loosest_lt)
                (link?_mono (Nat.zero_le _) hend) ⟨0, .stop hend⟩
              have hlink := link?_assign (c := c) (u := ts ++ u) ht (hp _ rfl) hline
              exact ⟨max m n + 2, .expression (.name (.inl hn)) (.assign hlink rfl
                (hb.mono (le_max_right ..)) (hm.mono (le_max_left ..)))⟩

end Derivations

/-! ### Texts -/

variable {source file : String}

theorem decimals_ofText : Decimals (TokenStream.ofText file source).body := by
  intro t ht hk
  have hspelled := TokenStream.plain_ofText file source t ht (by rw [hk]; rfl)
  rw [hk] at hspelled
  exact Lexeme.decimal_of_spells hspelled

/-- A sequence of operands on one line is read without a fault to the one tree of its tokens in
which every operator binds as its precedence says. -/
theorem parsed_climbs (hsequence : Sequence (TokenStream.ofText file source).body)
    (hline : List.IsChain (fun t u : Token => u.line = t.endLine)
      (TokenStream.ofText file source).body)
    (hdeep : ¬(Parsed.ofSource source file).TooDeep) :
    (Parsed.ofSource source file).diagnostics = [] ∧
      ∃ t x, (Parsed.ofSource source file).program.statements = [.expression t x] ∧
        Climbs x (TokenStream.ofText file source).body ∧
        ∀ y, Climbs y (TokenStream.ofText file source).body → y = x := by
  have hs := TokenStream.closed_ofText file source
  -- Any such tree is the one that is read.
  have hread : ∀ x, Climbs x (TokenStream.ofText file source).body →
      (Parsed.ofSource source file).faults = [] ∧
        ∃ t, (Parsed.ofSource source file).program.statements = [.expression t x] := by
    intro x hx
    cases hbody : (TokenStream.ofText file source).body with
    | nil => exact absurd hbody hx.ne_nil
    | cons t ts =>
        obtain ⟨l, hstrung⟩ := exists_strung (hbody ▸ hline)
        have hend : ∀ p,
            (⟨l, [(TokenStream.ofText file source).last]⟩ : Spot).link? .file p = none :=
          fun p => link?_end hs.last_isEnd
        have hderived : ∃ m, Derives false m (.expression .file loosest x)
            ⟨1, (TokenStream.ofText file source).toList⟩
            ⟨l, [(TokenStream.ofText file source).last]⟩ := by
          rw [TokenStream.toList, hbody]
          exact (hbody ▸ hx).derives hstrung (fun o _ => o.loosest_lt) (hend _) ⟨0, .stop (hend _)⟩
        obtain ⟨m, hm⟩ := hderived
        exact ((parsed_of_expression hs hx.legal hbody hm).resolve_left hdeep).imp id
          fun h => ⟨t, h⟩
  obtain ⟨x, hx⟩ := hsequence.exists_tree decimals_ofText
  obtain ⟨hfaults, t, hstatements⟩ := hread x hx
  refine ⟨by rw [Parsed.diagnostics, hfaults]; rfl, t, x, hstatements, hx, fun y hy => ?_⟩
  obtain ⟨-, u, hsame⟩ := hread y hy
  simp_all

/-- A product is taken before a difference, and a sign belongs to the number behind it. -/
theorem parsed_climbs_mixed :
    ¬(Parsed.ofSource "a := b - -1 * c" "t.prw").TooDeep ∧
      (Parsed.ofSource "a := b - -1 * c" "t.prw").diagnostics = [] ∧
        ∃ t x, (Parsed.ofSource "a := b - -1 * c" "t.prw").program.statements =
            [.expression t x] ∧
          Climbs x (TokenStream.ofText "t.prw" "a := b - -1 * c").body ∧
          ∀ y, Climbs y (TokenStream.ofText "t.prw" "a := b - -1 * c").body → y = x := by
  have hfaults : (Parsed.ofSource "a := b - -1 * c" "t.prw").faults = [] := by decide +kernel
  have hdeep : ¬(Parsed.ofSource "a := b - -1 * c" "t.prw").TooDeep := by
    rintro ⟨t, ht⟩
    simp [hfaults] at ht
  refine ⟨hdeep, parsed_climbs ?_ (by decide +kernel) hdeep⟩
  have hwords : (TokenStream.ofText "t.prw" "a := b - -1 * c").body.map
        (fun t => (t.kind, t.literal)) =
      [(.identifier, "a"), (.operator .assign, ":="), (.identifier, "b"), (.operator .minus, "-"),
        (.operator .minus, "-"), (.integer, "1"), (.operator .star, "*"), (.identifier, "c")] := by
    decide +kernel
  simp only [List.map_eq_cons_iff, List.map_eq_nil_iff, Prod.mk.injEq] at hwords
  obtain ⟨t₁, _, hbody, ⟨h₁, -⟩, t₂, _, rfl, ⟨h₂, -⟩, t₃, _, rfl, ⟨h₃, -⟩, t₄, _, rfl, ⟨h₄, -⟩,
    t₅, _, rfl, ⟨h₅, -⟩, t₆, _, rfl, ⟨h₆, hone⟩, t₇, _, rfl, ⟨h₇, -⟩, t₈, _, rfl, ⟨h₈, -⟩, rfl⟩ :=
      hwords
  have hinteger : Atom t₆ := .integer h₆ (by rw [hone]; decide)
  have hproduct : Operands [t₅, t₆, t₇, t₈] :=
    .binary .mul (.unary .negate h₅ (.atom hinteger)) h₇ (.one (.atom (.name h₈)))
  rw [hbody]
  exact .assign h₁ h₂ (.operands (.binary .sub (.atom (.name h₃)) h₄ hproduct))

end Grammar

end Clipper
