import Clipper.Proofs.Grammar.Completeness.Program
import Clipper.Proofs.Setting.Spots

/-!
Where something ends. A reader at a place reads one thing there, so the same holds of the grammar:
from one place there is one expression, whatever depth it is derived in, and one place behind it.
-/

namespace Clipper

/-- Some reader that has found no fault and has no illegal character ahead stands here. -/
def Spot.Clear (s : Spot) : Prop := ∃ r₀ r : Reader, r₀.Reaches r s

theorem Spot.Clear.behind {l : Nat} {t : Token} {u : List Token}
    (h : (⟨l, t :: u⟩ : Spot).Clear) (ht : t.isEnd = false) : (⟨t.endLine, u⟩ : Spot).Clear := by
  obtain ⟨r₀, r, hr⟩ := h
  exact ⟨r₀, r.advanced, hr.advanced ht⟩

/-- At the beginning of a text without illegal characters. -/
theorem TokenStream.clear {t : TokenStream} (ht : t.Closed)
    (hlegal : ∀ u ∈ t.body, u.isIllegal = false) : (⟨1, t.toList⟩ : Spot).Clear :=
  ⟨_, _, Grammar.reaches_ofStream ht hlegal⟩

/-- A reader can stand at any place of the line. -/
theorem Token.clear_of_on {file : String} {ts : List Token} {last : Token}
    (hts : ∀ t ∈ ts, t.On file 1) (hlast : last.isEnd = true) :
    (⟨1, ts ++ [last]⟩ : Spot).Clear :=
  TokenStream.clear (t := ⟨ts, last⟩)
    ⟨hlast, fun t ht => (hts t ht).goesOn, fun t ht => (hts t ht).written⟩
    fun t ht => (hts t ht).legal

namespace Grammar

variable {α : Type} {lax : Bool} {m n p : Nat} {c : Context} {b : Option Token} {x y left : Expr}
  {s s' s'' : Spot}

/-! ### One end -/

theorem Completes.clear {a : Reading α} {v : α} (h : Completes a v s s') (hs : s.Clear) :
    s'.Clear := by
  obtain ⟨r₀, r, hr⟩ := hs
  obtain ⟨r', -, hr'⟩ := h hr
  exact ⟨r₀, r', hr'⟩

theorem Completes.unique {a : Reading α} {v v' : α} (h : Completes a v s s')
    (h' : Completes a v' s s'') (hs : s.Clear) : v = v' ∧ s' = s'' := by
  obtain ⟨r₀, r, hr⟩ := hs
  obtain ⟨r', hrun, hr'⟩ := h hr
  obtain ⟨r'', hrun', hr''⟩ := h' hr
  obtain ⟨rfl, rfl⟩ := hrun.unique hrun'
  exact ⟨rfl, hr'.spot.symm.trans hr''.spot⟩

section Phrases

variable {f : α → Phrase} {a : Nat → Attempt α} {v w : α}
  (hf : ∀ {m v s s'}, Derives false m (f v) s s' → Completes (a m).run (.ok v) s s')

include hf

/-- Two derivations in any depths, read in a common one. -/
theorem unique_of_completes (h : Derives false m (f v) s s') (h' : Derives false n (f w) s s'')
    (hs : s.Clear) : v = w ∧ s' = s'' := by
  obtain ⟨hsame, hend⟩ := (hf (h.mono (Nat.le_max_left m n))).unique
    (hf (h'.mono (Nat.le_max_right m n))) hs
  exact ⟨Except.ok.inj hsame, hend⟩

end Phrases

theorem Derives.expression_completes (h : Derives false m (.expression c p x) s s') :
    Completes (Grammar.expression m c p).run (.ok x) s s' := h.completed trivial

theorem Derives.operand_completes (h : Derives false m (.operand c x) s s') :
    Completes (Grammar.operand (Grammar.expression m) c).run (.ok x) s s' := h.completed trivial

theorem Derives.arguments_completes {close : Punctuation} {xs : List Expr}
    (h : Derives false m (.arguments c close xs) s s') :
    Completes (Grammar.arguments (Grammar.expression m) c close).run (.ok xs) s s' :=
  h.completed trivial

theorem Derives.unique_expression (h : Derives false m (.expression c p x) s s')
    (h' : Derives false n (.expression c p y) s s'') (hs : s.Clear) : x = y ∧ s' = s'' :=
  unique_of_completes Derives.expression_completes h h' hs

theorem Derives.unique_operand (h : Derives false m (.operand c x) s s')
    (h' : Derives false n (.operand c y) s s'') (hs : s.Clear) : x = y ∧ s' = s'' :=
  unique_of_completes Derives.operand_completes h h' hs

theorem Derives.unique_arguments {close : Punctuation} {xs ys : List Expr}
    (h : Derives false m (.arguments c close xs) s s')
    (h' : Derives false n (.arguments c close ys) s s'') (hs : s.Clear) : xs = ys ∧ s' = s'' :=
  unique_of_completes Derives.arguments_completes h h' hs

/-! ### What can follow -/

/-- Nothing goes on behind a chain of links. -/
theorem Derives.link?_behind (h : Derives lax m (.links c p b left x) s s') :
    s'.link? c p = none := by
  generalize hq : Phrase.links c p b left x = q at h
  induction h generalizing b left with
  | stop hnone =>
      cases hq
      exact hnone
  | binary _ _ _ _ ih | assign _ _ _ _ _ ih | call _ _ _ _ ih | index _ _ _ _ ih
  | subscript _ _ _ _ ih | closeIndex _ _ ih | member _ _ _ ih =>
      cases hq
      exact ih rfl
  | _ => cases hq

theorem Derives.link?_expression (h : Derives lax m (.expression c p x) s s') :
    s'.link? c p = none := by
  cases h with
  | expression _ hlinks => exact hlinks.link?_behind

/-! ### One statement -/

/-- A statement that is one expression. -/
theorem Derives.alone {t : Token} (h : Derives lax m (.statements c [.expression t x]) s s') :
    Derives lax m (.expression c loosest x) s s' := by
  have hsome : ∀ {m s s' ss}, Derives lax m (.statement c ss) s s' → ss ≠ [] := by
    intro m s s' ss h
    cases h with
    | variableList _ hds _ => cases hds <;> simp
    | _ => simp
  have hnone : ∀ {s s' ss}, Derives lax m (.statements c ss) s s' → ss = [] → s = s' := by
    intro s s' ss h hss
    cases h with
    | noStatements _ => rfl
    | statements _ hx _ => exact absurd (List.append_eq_nil_iff.mp hss).1 (hsome hx)
  generalize hq : [Stmt.expression t x] = ss at h
  cases h with
  | noStatements _ => cases hq
  | @statements _ _ ss _ _ ss' _ _ hx hss =>
      obtain ⟨z, zs, rfl⟩ := List.exists_cons_of_ne_nil (hsome hx)
      obtain ⟨hz, hnil⟩ := List.cons.inj hq
      obtain ⟨rfl, hss'⟩ := List.append_eq_nil_iff.mp hnil.symm
      obtain rfl := hnone hss hss'
      subst hz
      generalize hq : [Stmt.expression t x] = ss at hx
      cases hx with
      | value hx _ =>
          cases hq
          exact hx
      | @variableList _ _ ds => cases ds <;> simp at hq
      | _ => cases hq

end Grammar

namespace Grammar

variable {t : TokenStream} {ss : List Stmt} {l : Nat}

/-- In the depth that there is the statements are read without a fault. -/
theorem parsed_of_strict (ht : t.Closed) (hlegal : ∀ u ∈ t.body, u.isIllegal = false)
    (h : Derives false maxDepth (.statements .file ss) ⟨1, t.toList⟩ ⟨l, [t.last]⟩) :
    (Parsed.ofStream t).faults = [] ∧ (Parsed.ofStream t).program.statements = ss := by
  obtain ⟨hfaults, hstatements⟩ := parsed_of_lax ht hlegal ht.last_isEnd h
  obtain ⟨ws, hcount, -⟩ := h.warned trivial
  have hnone : recounts [] t.toList = [] := by
    rw [hcount.recounts, recounts_end ht.last_isEnd, hcount.strict rfl]
    rfl
  exact ⟨hfaults.trans hnone, hstatements⟩

end Grammar

end Clipper
