import Clipper.Proofs.Rendering.Reread
import Clipper.Proofs.Setting.Depths

/-!
Chains of links in two places. What is called, subscripted or sent to goes on where the chain ends;
how much depth is left there does not depend on the place.
-/

namespace Clipper

/-- A name, or what is called, subscripted or sent to. -/
def Expr.isPostfix : Expr → Bool
  | .name _ | .call _ _ _ | .index _ _ _ | .member _ _ _ => true
  | _ => false

namespace Grammar

open Correspondence

variable {c : Context} {p d d' n n' k l : Nat} {b o : Option Token} {t u : Token}
  {ts us behind : List Token} {left x y : Expr} {xs : List Expr} {s s' w e : Spot} {S : Setting}

/-! ### Single links -/

/-- How far a chain of links has come. A bracket is there while its list of subscripts is open. -/
structure Chain where
  bracket : Option Token
  tree : Expr
  spot : Spot

/-- A chain goes on as another one that has come further, for which so much less depth is left. In
between at least so much depth is needed. -/
def Leads (c : Context) (p d n : Nat) (a a' : Chain) : Prop :=
  ∀ k x e, Derives false k (.links c p a.bracket a.tree x) a.spot e ↔
    d ≤ k ∧ ∃ j, k = j + n ∧ Derives false j (.links c p a'.bracket a'.tree x) a'.spot e

theorem Leads.refl (a : Chain) : Leads c p 0 0 a a := by
  intro k x e
  constructor
  · intro h
    exact ⟨Nat.zero_le k, k, rfl, h⟩
  · rintro ⟨-, j, rfl, h⟩
    exact h

theorem Leads.trans {a a' a'' : Chain} (h : Leads c p d n a a') (h' : Leads c p d' n' a' a'') :
    Leads c p (max d (d' + n)) (n + n') a a'' := by
  intro k x e
  rw [h k x e]
  constructor
  · rintro ⟨hle, j, rfl, hj⟩
    obtain ⟨hle', i, rfl, hi⟩ := (h' j x e).mp hj
    exact ⟨by omega, i, by omega, hi⟩
  · rintro ⟨hle, i, rfl, hi⟩
    exact ⟨by omega, i + n', by omega, (h' _ x e).mpr ⟨by omega, i, rfl, hi⟩⟩

theorem leads_call (hlink : (⟨l, t :: ts⟩ : Spot).link? c p = some .call)
    (h : Exactly d (.arguments c .closeParen) xs ⟨t.endLine, ts⟩ s) :
    Leads c p (d + 1) 1 ⟨none, left, ⟨l, t :: ts⟩⟩ ⟨none, .call t left xs, s⟩ := by
  intro k x e
  constructor
  · intro hk
    cases hk with
    | call _ hargs hlinks =>
        obtain ⟨hle, rfl, rfl⟩ := (h _ _ _).mp hargs
        exact ⟨Nat.succ_le_succ hle, _, rfl, hlinks⟩
    | stop hother | binary hother | assign hother | index hother | member hother =>
        rw [hlink] at hother
        cases hother
  · rintro ⟨hle, j, rfl, hlinks⟩
    exact .call hlink (h.derives (Nat.le_of_succ_le_succ hle)) hlinks

theorem leads_index (hlink : (⟨l, t :: ts⟩ : Spot).link? c p = some .index)
    (h : Exactly d (.expression c.delimit loosest) y ⟨t.endLine, ts⟩ s) :
    Leads c p (d + 1) 1 ⟨none, left, ⟨l, t :: ts⟩⟩ ⟨some t, .index t left y, s⟩ := by
  intro k x e
  constructor
  · intro hk
    cases hk with
    | index _ hy hlinks =>
        obtain ⟨hle, rfl, rfl⟩ := (h _ _ _).mp hy
        exact ⟨Nat.succ_le_succ hle, _, rfl, hlinks⟩
    | stop hother | binary hother | assign hother | call hother | member hother =>
        rw [hlink] at hother
        cases hother
  · rintro ⟨hle, j, rfl, hlinks⟩
    exact .index hlink (h.derives (Nat.le_of_succ_le_succ hle)) hlinks

theorem leads_subscript (ht : t.isPunctuation .comma = true)
    (h : Exactly d (.expression c.delimit loosest) y ⟨t.endLine, ts⟩ s) :
    Leads c p (d + 1) 1 ⟨some u, left, ⟨l, t :: ts⟩⟩ ⟨some u, .index u left y, s⟩ := by
  intro k x e
  constructor
  · intro hk
    cases hk with
    | subscript _ hy hlinks =>
        obtain ⟨hle, rfl, rfl⟩ := (h _ _ _).mp hy
        exact ⟨Nat.succ_le_succ hle, _, rfl, hlinks⟩
    | closeIndex hclose _ => simp_all [Token.isPunctuation]
  · rintro ⟨hle, j, rfl, hlinks⟩
    exact .subscript ht (h.derives (Nat.le_of_succ_le_succ hle)) hlinks

theorem leads_close (ht : t.isPunctuation .closeBracket = true) :
    Leads c p 0 0 ⟨some u, left, ⟨l, t :: ts⟩⟩ ⟨none, left, ⟨t.endLine, ts⟩⟩ := by
  intro k x e
  constructor
  · intro hk
    cases hk with
    | closeIndex _ hlinks => exact ⟨Nat.zero_le k, k, rfl, hlinks⟩
    | subscript hcomma _ _ => simp_all [Token.isPunctuation]
  · rintro ⟨-, j, rfl, hlinks⟩
    exact .closeIndex ht hlinks

theorem leads_member (hlink : (⟨l, t :: u :: ts⟩ : Spot).link? c p = some .member)
    (hu : u.kind = .identifier) :
    Leads c p 0 1 ⟨none, left, ⟨l, t :: u :: ts⟩⟩
      ⟨none, .member t left ⟨u⟩, ⟨u.endLine, ts⟩⟩ := by
  intro k x e
  constructor
  · intro hk
    cases hk with
    | member _ _ hlinks => exact ⟨Nat.zero_le _, _, rfl, hlinks⟩
    | stop hother | binary hother | assign hother | call hother | index hother =>
        rw [hlink] at hother
        cases hother
  · rintro ⟨-, j, rfl, hlinks⟩
    exact .member hlink hu hlinks

theorem exactly_stop (hnone : s.link? c p = none) : Exactly 0 (.links c p none left) left s s := by
  intro k y s''
  constructor
  · intro hk
    cases hk with
    | stop => exact ⟨Nat.zero_le k, rfl, rfl⟩
    | binary hlink | assign hlink | call hlink | index hlink | member hlink =>
        rw [hnone] at hlink
        cases hlink
  · rintro ⟨-, rfl, rfl⟩
    exact .stop hnone

theorem Leads.exactly {a a' : Chain} (h : Leads c p d n a a')
    (h' : Exactly d' (.links c p a'.bracket a'.tree) x a'.spot s) :
    Exactly (max d (d' + n)) (.links c p a.bracket a.tree) x a.spot s := by
  intro k y s''
  rw [h k y s'']
  constructor
  · rintro ⟨hle, j, rfl, hj⟩
    obtain ⟨hle', rfl, rfl⟩ := (h' _ _ _).mp hj
    exact ⟨by omega, rfl, rfl⟩
  · rintro ⟨hle, rfl, rfl⟩
    exact ⟨by omega, k - n, by omega, h'.derives (by omega)⟩

/-! ### Whole chains -/

/-- A chain ends where it is, or further on. -/
theorem Derives.eq_or_length_lt {lax : Bool} (h : Derives lax k (.links c p none left x) s s') :
    left = x ∧ s = s' ∨ s'.rest.length < s.rest.length := by
  cases h with
  | stop => exact .inl ⟨rfl, rfl⟩
  | binary _ hy hlinks | assign _ _ hy hlinks | call _ hy hlinks | index _ hy hlinks =>
      exact .inr (Nat.lt_succ_of_le (Nat.le_trans hlinks.length_le hy.length_le))
  | member _ _ hlinks => exact .inr (Nat.lt_succ_of_le (Nat.le_succ_of_le hlinks.length_le))

/-- A list of subscripts is closed. -/
theorem Derives.length_lt {lax : Bool} (h : Derives lax k (.links c p (some t) left x) s s') :
    s'.rest.length < s.rest.length := by
  cases h with
  | closeIndex _ hlinks => exact Nat.lt_succ_of_le hlinks.length_le
  | subscript _ hy hlinks =>
      exact Nat.lt_succ_of_le (Nat.le_trans hlinks.length_le hy.length_le)

/-- What a link is looked for at makes no difference to those that bind tightest. -/
theorem link?_tighter {q : Nat} {lk : Link} (h : s.link? c p = some lk) (hq : q < lk.precedence) :
    s.link? c q = some lk := by
  rw [Spot.link?, Option.bind_eq_some_iff] at h ⊢
  obtain ⟨t, ht, h⟩ := h
  rw [Option.filter_eq_some_iff, Bool.and_eq_true] at h
  refine ⟨t, ht, Option.filter_eq_some_iff.mpr ⟨h.1, ?_⟩⟩
  rw [Bool.and_eq_true]
  exact ⟨decide_eq_true hq, h.2.2⟩

/-- Behind the right operand of an operator only further operators follow. -/
theorem Derives.isPostfix_eq {q : Nat} {lax : Bool}
    (h : Derives lax k (.links c p none left x) s s') (hleft : left.isPostfix = false)
    (hs : s.link? c q = none) (hq : q < Link.call.precedence) : x.isPostfix = false := by
  have hop : ∀ op : BinaryOp, op.operator.precedence < Link.call.precedence :=
    fun op => Nat.lt_trans op.lt_not (by decide)
  generalize hphrase : Phrase.links c p none left x = r at h
  induction h generalizing left q with
  | stop =>
      cases hphrase
      exact hleft
  | binary _ hy _ _ ih =>
      cases hphrase
      exact ih rfl hy.link?_expression (hop _) rfl
  | assign _ _ hy _ _ ih =>
      cases hphrase
      exact ih rfl hy.link?_expression (by decide) rfl
  | call hlink | index hlink | member hlink =>
      cases hphrase
      rw [link?_tighter hlink hq] at hs
      cases hs
  | _ => cases hphrase

/-- A chain that is read alone goes on in another place with what stands behind it there. -/
theorem Derives.leads (h : Derives false k (.links c p b left x) s s') (hs : s.Clear)
    (hx : x.isPostfix = true) :
    ∃ d n, ∀ ⦃S : Setting⦄ ⦃w b' left'⦄, S.behind.length = s'.rest.length → S.Spots s w →
      w.Clear → left'.unplaced = left.unplaced → b'.map Token.unplaced = b.map Token.unplaced →
      ∃ y, y.unplaced = x.unplaced ∧
        Leads c p d n ⟨b', left', w⟩ ⟨none, y, ⟨S.line', S.behind'⟩⟩ := by
  have hopen : ∀ {t u : Token}, verbatim.token t u → u.isEnd = false :=
    fun h => verbatim.isEnd_token (verbatim_symm h)
  have hunplaced : ∀ {t u : Token}, verbatim.token t u → u.unplaced = t.unplaced :=
    fun h => (unplaced_of_verbatim (.inl h)).1.symm
  have hnone : (none : Option Token).map Token.unplaced = (none : Option Token).map Token.unplaced
    := rfl
  have hop : ∀ op : BinaryOp, op.operator.precedence < Link.call.precedence :=
    fun op => Nat.lt_trans op.lt_not (by decide)
  generalize hphrase : Phrase.links c p b left x = r at h
  induction h generalizing b left with
  | stop =>
      cases hphrase
      refine ⟨0, 0, fun S w b' left' hlength hw _ hleft hb => ⟨left', hleft, ?_⟩⟩
      obtain rfl := Option.map_eq_none_iff.mp hb
      obtain ⟨-, rfl⟩ := hw.arrived hlength.symm
      exact .refl _
  | binary _ hy hlinks =>
      cases hphrase
      rw [hlinks.isPostfix_eq rfl hy.link?_expression (hop _)] at hx
      cases hx
  | assign _ _ hy hlinks =>
      cases hphrase
      rw [hlinks.isPostfix_eq rfl hy.link?_expression (by decide)] at hx
      cases hx
  | call hlink hargs hlinks _ ih =>
      cases hphrase
      have hbehind := hs.behind (isEnd_of_link hlink)
      obtain ⟨d₁, hd₁⟩ := exists_exactly ((portable_arguments _).sole _) hbehind hargs
      obtain ⟨d₂, n₂, hrest⟩ := ih ((portable_arguments _).clear hargs hbehind) rfl
      refine ⟨max (d₁ + 1) (d₂ + 1), 1 + n₂, fun S w b' left' hlength hw hclear hleft hb => ?_⟩
      obtain rfl := Option.map_eq_none_iff.mp hb
      have hroom := hlength ▸ hlinks.length_le
      have hin := Nat.le_trans hroom hargs.length_le
      obtain ⟨v, vs, rfl, -, htv, hv⟩ := hw.taken hin
      obtain ⟨ys, w₁, hys, hw₁, hclear₁, hd⟩ :=
        hd₁.carried (portable_arguments _) hv (hclear.behind (hopen htv)) hroom
      obtain ⟨y, hy, hleads⟩ :=
        hrest hlength hw₁ hclear₁ (Expr.unplaced_call htv hleft hys) hnone
      have hlink' := (hw.link?_taken hin p c.delimited).trans hlink
      exact ⟨y, hy, (leads_call hlink' (hd c.delimited)).trans hleads⟩
  | index hlink hi hlinks _ ih =>
      cases hphrase
      have hbehind := hs.behind (isEnd_of_link hlink)
      obtain ⟨d₁, hd₁⟩ := exists_exactly ((portable_expression _).sole _) hbehind hi
      obtain ⟨d₂, n₂, hrest⟩ := ih ((portable_expression _).clear hi hbehind) rfl
      refine ⟨max (d₁ + 1) (d₂ + 1), 1 + n₂, fun S w b' left' hlength hw hclear hleft hb => ?_⟩
      obtain rfl := Option.map_eq_none_iff.mp hb
      have hroom := hlength ▸ hlinks.length_lt
      have hin := Nat.le_trans (Nat.le_of_lt hroom) hi.length_le
      obtain ⟨v, vs, rfl, -, htv, hv⟩ := hw.taken hin
      obtain ⟨j, w₁, hj, hw₁, hclear₁, hd⟩ := hd₁.carried (portable_expression _) hv
        (hclear.behind (hopen htv)) (room _ hroom)
      have hbracket : (some v).map Token.unplaced = _ := congrArg some (hunplaced htv)
      obtain ⟨y, hy, hleads⟩ := hrest hlength hw₁ hclear₁ (Expr.unplaced_index (hunplaced htv) hleft
        (Expr.unplaced_of_verbatim hj)) hbracket
      have hlink' := (hw.link?_taken hin p c.delimited).trans hlink
      exact ⟨y, hy, (leads_index hlink' (hd true)).trans hleads⟩
  | subscript ht hi hlinks _ ih =>
      cases hphrase
      have hbehind := hs.behind (Token.isEnd_of_punctuation ht)
      obtain ⟨d₁, hd₁⟩ := exists_exactly ((portable_expression _).sole _) hbehind hi
      obtain ⟨d₂, n₂, hrest⟩ := ih ((portable_expression _).clear hi hbehind) rfl
      refine ⟨max (d₁ + 1) (d₂ + 1), 1 + n₂, fun S w b' left' hlength hw hclear hleft hb => ?_⟩
      obtain ⟨o, rfl, ho⟩ := Option.map_eq_some_iff.mp hb
      have hroom := hlength ▸ hlinks.length_lt
      obtain ⟨v, vs, rfl, -, htv, hv⟩ := hw.taken (Nat.le_trans (Nat.le_of_lt hroom) hi.length_le)
      obtain ⟨j, w₁, hj, hw₁, hclear₁, hd⟩ := hd₁.carried (portable_expression _) hv
        (hclear.behind (hopen htv)) (room _ hroom)
      obtain ⟨y, hy, hleads⟩ := hrest hlength hw₁ hclear₁
        (Expr.unplaced_index ho hleft (Expr.unplaced_of_verbatim hj)) hb
      have hcomma := isPunctuation_of_verbatim htv ht
      exact ⟨y, hy, (leads_subscript (c := c) hcomma (hd true)).trans hleads⟩
  | closeIndex ht hlinks ih =>
      cases hphrase
      obtain ⟨d, n, hrest⟩ := ih (hs.behind (Token.isEnd_of_punctuation ht)) rfl
      refine ⟨max 0 (d + 0), 0 + n, fun S w b' left' hlength hw hclear hleft hb => ?_⟩
      obtain ⟨o, rfl, -⟩ := Option.map_eq_some_iff.mp hb
      obtain ⟨v, vs, rfl, -, htv, hv⟩ := hw.taken (hlength ▸ hlinks.length_le)
      obtain ⟨y, hy, hleads⟩ :=
        hrest hlength hv (hclear.behind (hopen htv)) hleft hnone
      exact ⟨y, hy, (leads_close (isPunctuation_of_verbatim htv ht)).trans hleads⟩
  | member hlink hn hlinks ih =>
      cases hphrase
      have hbehind := hs.behind (isEnd_of_link hlink)
      obtain ⟨d, n, hrest⟩ := ih (hbehind.behind (Token.isEnd_of_kind hn rfl)) rfl
      refine ⟨max 0 (d + 1), 1 + n, fun S w b' left' hlength hw hclear hleft hb => ?_⟩
      obtain rfl := Option.map_eq_none_iff.mp hb
      have hin := hlength ▸ hlinks.length_le
      have hlink' := (hw.link?_taken (Nat.le_succ_of_le hin) p c.delimited).trans hlink
      obtain ⟨v, v', vs, rfl, htv, hnv, hv⟩ := hw.takenBoth hin
      obtain ⟨y, hy, hleads⟩ := hrest hlength hv
        ((hclear.behind (hopen htv)).behind (hopen hnv)) (Expr.unplaced_member htv hleft hnv)
        hnone
      exact ⟨y, hy, (leads_member hlink' (hnv.1.1 ▸ hn)).trans hleads⟩
  | _ => cases hphrase

end Grammar

end Clipper
