import Clipper.Proofs.Breaks.Programs
import Clipper.Proofs.Setting.Ends
import Clipper.Proofs.Setting.Phrases

/-!
The least depth in which something is read. Where a stretch of text stands in two places, the same
depth is the least in both.
-/

namespace Clipper

open Correspondence

/-- Without the places of its tokens. -/
def Expr.unplaced (x : Expr) : Expr := (Relabelling.all Token.unplaced).expression x

namespace Expr

variable {t u n m : Token} {x y i j : Expr} {xs ys : List Expr} {nested : Bool}

theorem unplaced_of_verbatim (h : verbatim.Exprs nested x y) : y.unplaced = x.unplaced :=
  (Part.expression.inj (relabels_verbatim.part h)).symm

theorem unplaced_call (ht : verbatim.token t u) (hx : y.unplaced = x.unplaced)
    (hxs : Part.Alike verbatim nested (.expressions xs) (.expressions ys)) :
    (Expr.call u y ys).unplaced = (Expr.call t x xs).unplaced := by
  have hsame := Part.expressions.inj (relabels_verbatim.part hxs)
  simp only [unplaced, Relabelling.expression, relabels_verbatim.written ht, hsame] at hx ⊢
  rw [hx]

theorem unplaced_index (ht : u.unplaced = t.unplaced) (hx : y.unplaced = x.unplaced)
    (hi : j.unplaced = i.unplaced) : (Expr.index u y j).unplaced = (Expr.index t x i).unplaced := by
  simp only [unplaced, Relabelling.expression, Relabelling.all] at *
  rw [ht, hx, hi]

theorem unplaced_member (ht : verbatim.token t u) (hx : y.unplaced = x.unplaced)
    (hn : verbatim.token n m) :
    (Expr.member u y ⟨m⟩).unplaced = (Expr.member t x ⟨n⟩).unplaced := by
  simp only [unplaced, Relabelling.expression, relabels_verbatim.written ht,
    relabels_verbatim.token hn] at hx ⊢
  rw [hx]

end Expr

namespace Grammar

variable {α : Type} {f : α → Phrase} {d k m n : Nat} {x y : α} {s s' s'' w : Spot}

/-! ### One place -/

/-- Of these phrases one is read from a place, whatever the depth. -/
def Sole (f : α → Phrase) : Prop :=
  ∀ ⦃m n x y s s' s''⦄, Derives false m (f x) s s' → Derives false n (f y) s s'' → s.Clear →
    x = y ∧ s' = s''

/-- Of these phrases exactly one is read from the one spot, to the other one, in the depth and in
every greater one. -/
def Exactly (d : Nat) (f : α → Phrase) (x : α) (s s' : Spot) : Prop :=
  ∀ k y s'', Derives false k (f y) s s'' ↔ d ≤ k ∧ y = x ∧ s'' = s'

theorem Exactly.derives (h : Exactly d f x s s') (hle : d ≤ k) : Derives false k (f x) s s' :=
  (h k x s').mpr ⟨hle, rfl, rfl⟩

theorem exactly_of_derives (hsole : Sole f) (hs : s.Clear) (h : Derives false d (f x) s s')
    (hleast : ∀ k, Derives false k (f x) s s' → d ≤ k) : Exactly d f x s s' := by
  intro k y s''
  constructor
  · intro hk
    obtain ⟨rfl, rfl⟩ := hsole h hk hs
    exact ⟨hleast k hk, rfl, rfl⟩
  · rintro ⟨hle, rfl, rfl⟩
    exact h.mono hle

open Classical in
/-- Among the depths in which something is read there is a least one. -/
theorem exists_exactly (hsole : Sole f) (hs : s.Clear) (h : Derives false m (f x) s s') :
    ∃ d, Exactly d f x s s' := by
  have hsome : ∃ m, Derives false m (f x) s s' := ⟨m, h⟩
  exact ⟨Nat.find hsome, exactly_of_derives hsole hs (Nat.find_spec hsome) fun _ hk =>
    Nat.find_min' hsome hk⟩

/-! ### Two places -/

variable {g : Context → α → Phrase} {R : Context → α → α → Prop} {S : Setting} {c : Context}

/-- Such phrases are carried from place to place, with parts that are alike. -/
structure Portable (g : Context → α → Phrase) (R : Context → α → α → Prop) : Prop where
  sole : ∀ c, Sole (g c)
  clear : ∀ ⦃m c x s s'⦄, Derives false m (g c x) s s' → s.Clear → s'.Clear
  carries : ∀ ⦃S m c x s s'⦄, Derives false m (g c x) s s' →
    Carries S false m s s' g c x (R c x)
  margin : ∀ (S : Setting) c x c' y, (g c x).margin S.swap = (g c' y).margin S

theorem portable_expression (p : Nat) :
    Portable (fun c => .expression c p) fun c => verbatim.Exprs c.inRoutine where
  sole _ _ _ _ _ _ _ _ h h' hs := h.unique_expression h' hs
  clear _ _ _ _ _ h hs := h.expression_completes.clear hs
  carries S _ _ _ _ _ h := h.carried S
  margin _ _ _ _ _ := rfl

theorem portable_operand : Portable .operand fun c => verbatim.Exprs c.inRoutine where
  sole _ _ _ _ _ _ _ _ h h' hs := h.unique_operand h' hs
  clear _ _ _ _ _ h hs := h.operand_completes.clear hs
  carries S _ _ _ _ _ h := h.carried S
  margin _ _ _ _ _ := rfl

theorem portable_arguments (close : Punctuation) :
    Portable (fun c => .arguments c close) fun c xs ys =>
      Part.Alike verbatim c.inRoutine (.expressions xs) (.expressions ys) where
  sole _ _ _ _ _ _ _ _ h h' hs := h.unique_arguments h' hs
  clear _ _ _ _ _ h hs := h.arguments_completes.clear hs
  carries S _ _ _ _ _ h := h.carried S
  margin _ _ _ _ _ := rfl

/-- In another place the least depth is the same. -/
theorem Exactly.carried (h : Exactly d (g c) x s s') (hg : Portable g R) (hw : S.Spots s w)
    (hclear : w.Clear) (hroom : S.behind.length + (g c x).margin S ≤ s'.rest.length) :
    ∃ y w', R c x y ∧ S.Spots s' w' ∧ w'.Clear ∧ ∀ b, Exactly d (g (c.inside b)) y w w' := by
  obtain ⟨y, w', hy, hw', hd⟩ := hg.carries (h.derives (Nat.le_refl d)) hw hroom
  refine ⟨y, w', hy, hw', hg.clear (hd true) hclear, fun b => ?_⟩
  apply exactly_of_derives (hg.sole _) hclear (hd b)
  intro k hk
  -- What is read there in a smaller depth would be read here as well.
  have hlength := hw'.remaining
  have hroom' : S.swap.behind.length + (g (c.inside b) y).margin S.swap ≤ w'.rest.length := by
    rw [hg.margin S _ _ c x]
    show S.behind'.length + _ ≤ _
    omega
  obtain ⟨z, s'', -, -, hback⟩ := hg.carries hk hw.swapped hroom'
  exact ((h k z s'').mp (hback c.delimited)).1

end Grammar

end Clipper
