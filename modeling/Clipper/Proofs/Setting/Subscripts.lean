import Clipper.Proofs.Setting.Chains

/-!
Lists of subscripts. One list with commas and lists of one subscript each are chains of the same
links behind the same operand, so they need the same depth and make the same tree.
-/

namespace Clipper

open Correspondence Layout

namespace Grammar

variable {file : String} {d d' k l n : Nat} {c : Context} {p : Nat} {t u close last : Token}
  {ts us : List Token} {left x y : Expr} {s s' s'' w : Spot} {ws vs : List Word}

/-! ### Operands -/

/-- A parenthesis needs the depth of what is in it. -/
theorem exactly_group (ht : t.isPunctuation .openParen = true)
    (h : Exactly d (.expression c.delimit loosest) x ⟨t.endLine, ts⟩ ⟨l, close :: us⟩)
    (hclose : close.isPunctuation .closeParen = true) :
    Exactly d (.operand c) x ⟨n, t :: ts⟩ ⟨close.endLine, us⟩ := by
  intro k y s''
  constructor
  · intro hk
    cases hk with
    | group _ hy _ =>
        obtain ⟨hle, rfl, hspot⟩ := (h _ _ _).mp hy
        cases hspot
        exact ⟨hle, rfl, rfl⟩
    | whileLoop hword => cases hword <;> simp_all [Token.isPunctuation, Token.isKeyword]
    | _ => simp_all [Token.isPunctuation, Token.isKeyword]
  · rintro ⟨hle, rfl, rfl⟩
    exact .group ht (h.derives hle) hclose

/-- An operand that nothing is looked for behind. -/
theorem Derives.whole (h : Derives false k (.operand c x) s s') (hs : s.Clear)
    (hx : x.isPostfix = true) :
    ∃ d, ∀ ⦃S : Setting⦄ ⦃w⦄, S.behind.length ≤ s'.rest.length → S.Spots s w → w.Clear →
      ∃ y w', y.unplaced = x.unplaced ∧ S.Spots s' w' ∧ w'.Clear ∧
        Exactly d (.operand c) y w w' := by
  have hopen : ∀ {t u : Token}, verbatim.token t u → u.isEnd = false :=
    fun h => verbatim.isEnd_token (verbatim_symm h)
  have hleast : ∀ {y : Expr} {w w' : Spot}, w.Clear → Derives false 0 (.operand c y) w w' →
      Exactly 0 (.operand c) y w w' := fun hw h =>
    exactly_of_derives (portable_operand.sole c) hw h fun k _ => Nat.zero_le k
  cases h with
  | name ht =>
      refine ⟨0, fun S w hlength hw hclear => ?_⟩
      obtain ⟨u, us, rfl, -, htu, hv⟩ := hw.taken hlength
      have hname : verbatim.Exprs false _ _ := .name htu ht
      exact ⟨.name ⟨u⟩, _, Expr.unplaced_of_verbatim hname, hv,
        hclear.behind (hopen htu), hleast hclear (.name (htu.1.1 ▸ ht))⟩
  | ownMember ht hn =>
      refine ⟨0, fun S w hlength hw hclear => ?_⟩
      obtain ⟨u, v, us, rfl, htu, hnv, hv⟩ := hw.takenBoth hlength
      have hmember : verbatim.Exprs false _ _ := .ownMember htu (.written hnv hn)
      exact ⟨_, _, Expr.unplaced_of_verbatim hmember, hv,
        (hclear.behind (hopen htu)).behind (hopen hnv),
        hleast hclear (.ownMember (isPunctuation_of_verbatim htu ht) (hnv.1.1 ▸ hn))⟩
  | group ht hx' hclose =>
      have hbehind := hs.behind (Token.isEnd_of_punctuation ht)
      obtain ⟨d, hd⟩ := exists_exactly ((portable_expression _).sole _) hbehind hx'
      refine ⟨d, fun S w hlength hw hclear => ?_⟩
      have hroom := Nat.lt_succ_of_le hlength
      obtain ⟨u, us, rfl, -, htu, hv⟩ :=
        hw.taken (Nat.le_trans (Nat.le_of_lt hroom) hx'.length_le)
      have hcarried := hd.carried (portable_expression _) hv (hclear.behind (hopen htu))
      obtain ⟨y, w₁, hy, hw₁, hclear₁, hd'⟩ := hcarried (room _ hroom)
      obtain ⟨v, vs, rfl, -, hclosev, hv₁⟩ := hw₁.taken hlength
      exact ⟨y, _, Expr.unplaced_of_verbatim hy, hv₁, hclear₁.behind (hopen hclosev),
        exactly_group (isPunctuation_of_verbatim htu ht) (hd' true)
          (isPunctuation_of_verbatim hclosev hclose)⟩
  | _ => cases hx

/-- Where an operand and the links behind it are known, so is the expression. -/
theorem expression_iff {a : Chain} (h : Exactly d (.operand c) left s w)
    (hlinks : Leads c p d' n ⟨none, left, w⟩ a) {x : Expr} {e : Spot} :
    Derives false k (.expression c p x) s e ↔
      max d d' + 1 ≤ k ∧ ∃ j, k = j + (n + 1) ∧
        Derives false j (.links c p a.bracket a.tree x) a.spot e := by
  constructor
  · intro hk
    cases hk with
    | expression hoperand hbehind =>
        obtain ⟨hle, rfl, rfl⟩ := (h _ _ _).mp hoperand
        obtain ⟨hle', j, rfl, hj⟩ := (hlinks _ _ _).mp hbehind
        exact ⟨by omega, j, by omega, hj⟩
  · rintro ⟨hle, j, hk, hj⟩
    obtain rfl : k = j + n + 1 := hk
    exact .expression (h.derives (by omega)) ((hlinks _ _ _).mpr ⟨by omega, j, rfl, hj⟩)

/-- However these words go on, they are read as this tree first, and for what goes on so much less
depth is left. In the words themselves at least so much depth is needed. -/
def Heads (file : String) (ws : List Word) (x : Expr) : Prop :=
  ∃ d n, ∀ ⦃ts behind⦄, ts.map Token.word = ws → (∀ t ∈ ts, t.On file 1) →
    (⟨1, ts ++ behind⟩ : Spot).Clear → ∃ y, y.unplaced = x.unplaced ∧
      ∀ k z e, Derives false k (.expression .file loosest z) ⟨1, ts ++ behind⟩ e ↔
        d ≤ k ∧ ∃ j, k = j + n ∧ Derives false j (.links .file loosest none y z) ⟨1, behind⟩ e

/-- What is called, subscripted or sent to can be subscripted further. -/
theorem heads_of_derives
    (h : Derives false k (.expression .file loosest x) ⟨1, ts ++ [last]⟩ ⟨1, [last]⟩)
    (hts : ∀ t ∈ ts, t.On file 1) (hlast : last.isEnd = true) (hx : x.isPostfix = true) :
    Heads file (ts.map Token.word) x := by
  have hclear := Token.clear_of_on hts hlast
  cases h with
  | @expression _ _ left _ s₁ _ _ _ hleft hlinks =>
      obtain ⟨d', n, hchain⟩ := hlinks.leads (portable_operand.clear hleft hclear) hx
      -- Behind an operand something is left of the words, or it is the whole expression.
      have hoperand : ∃ d, ∀ ⦃S : Setting⦄ ⦃w⦄, S.behind.length = 1 →
          S.Spots ⟨1, ts ++ [last]⟩ w → w.Clear → ∃ y w', y.unplaced = left.unplaced ∧
            S.Spots s₁ w' ∧ w'.Clear ∧ Exactly d (.operand .file) y w w' := by
        rcases hlinks.eq_or_length_lt with ⟨rfl, rfl⟩ | hlt
        · obtain ⟨d, hd⟩ := hleft.whole hclear hx
          exact ⟨d, fun S w hlength hw hw' => hd (Nat.le_of_eq hlength) hw hw'⟩
        · obtain ⟨d, hd⟩ := exists_exactly (portable_operand.sole _) hclear hleft
          refine ⟨d, fun S w hlength hw hw' => ?_⟩
          obtain ⟨y, w', hy, hw₁, hclear₁, hd'⟩ :=
            hd.carried portable_operand hw hw' (room _ (hlength ▸ hlt))
          exact ⟨y, w', Expr.unplaced_of_verbatim hy, hw₁, hclear₁, hd' false⟩
      obtain ⟨d, hd⟩ := hoperand
      refine ⟨max d d' + 1, n + 1, fun us behind hwords hus hclear' => ?_⟩
      let S : Setting := ⟨[last], behind, 1, 1, false, nofun, nofun⟩
      have hspots : S.Spots ⟨1, ts ++ [last]⟩ ⟨1, us ++ behind⟩ :=
        Setting.spots_of_on hts hus hwords
      obtain ⟨left', w, hleft', hw, hclear₁, hd'⟩ := hd rfl hspots hclear'
      have hnone : (none : Option Token).map Token.unplaced = none := rfl
      obtain ⟨y, hy, hleads⟩ := hchain rfl hw hclear₁ hleft' hnone
      exact ⟨y, hy, fun k z e => expression_iff hd' hleads⟩

/-! ### Subscripts -/

/-- Words that are read alone as one expression. Where nothing goes on behind them they are read as
it, in the same depth and in every greater one, inside of delimiters and outside. -/
structure Subscript (file : String) where
  words : List Word
  tree : Expr
  depth : Nat
  read : ∀ {ts behind : List Token} (b : Bool), ts.map Token.word = words →
    (∀ t ∈ ts, t.On file 1) → (∀ t ∈ behind.head?, t.shuts = true) →
    (⟨1, ts ++ behind⟩ : Spot).Clear → ∃ y, y.unplaced = tree.unplaced ∧
      Exactly depth (.expression (Context.file.inside b) loosest) y ⟨1, ts ++ behind⟩ ⟨1, behind⟩

theorem exists_subscript
    (h : Derives false k (.expression .file loosest x) ⟨1, ts ++ [last]⟩ ⟨1, [last]⟩)
    (hts : ∀ t ∈ ts, t.On file 1) (hlast : last.isEnd = true) :
    ∃ p : Subscript file, p.words = ts.map Token.word ∧ p.tree = x := by
  obtain ⟨d, hd⟩ := exists_exactly ((portable_expression _).sole _) (Token.clear_of_on hts hlast) h
  refine ⟨⟨ts.map Token.word, x, d, fun {us behind} b hwords hus hshut hclear => ?_⟩, rfl, rfl⟩
  let S : Setting := .ofLast 1 1 hlast hshut
  have hspots : S.Spots ⟨1, ts ++ [last]⟩ ⟨1, us ++ behind⟩ := Setting.spots_of_on hts hus hwords
  have hcarried := hd.carried (portable_expression _) hspots hclear
  obtain ⟨y, w, hy, hw, -, hd'⟩ := hcarried (Nat.le_refl 1)
  obtain ⟨-, rfl⟩ := hw.arrived rfl
  exact ⟨y, Expr.unplaced_of_verbatim hy, hd' b⟩

/-- What stands in parentheses can be subscripted. -/
theorem Subscript.heads (q : Subscript file) :
    Heads file (marked .openParen :: (q.words ++ [marked .closeParen])) q.tree := by
  refine ⟨max q.depth 0 + 1, 0 + 1, fun ts behind hts hon hclear => ?_⟩
  obtain ⟨t, _, rfl, ht, hts⟩ := List.map_eq_cons_iff.mp hts
  obtain ⟨us, _, rfl, hus, hts⟩ := List.map_eq_append_iff.mp hts
  obtain ⟨k, rfl, hk⟩ := List.map_eq_singleton_iff.mp hts
  rw [List.forall_mem_cons, List.forall_mem_append, List.forall_mem_singleton] at hon
  obtain ⟨hont, honus, honk⟩ := hon
  have hshut : ∀ u ∈ (k :: behind).head?, u.shuts = true := by
    intro u hu
    obtain rfl := Option.some.inj hu
    exact Token.shuts_of_kind (kind_of_word hk) rfl
  have hsplit : t :: (us ++ [k]) ++ behind = t :: (us ++ k :: behind) := by simp
  rw [hsplit] at hclear ⊢
  have hbehind := hclear.behind hont.goesOn
  rw [hont.endLine_eq] at hbehind
  obtain ⟨y, hy, hd⟩ := q.read true hus honus hshut hbehind
  refine ⟨y, hy, fun j z e => ?_⟩
  have hinside : Exactly q.depth (.expression Context.file.delimit loosest) y
      ⟨t.endLine, us ++ k :: behind⟩ ⟨1, k :: behind⟩ := by
    rw [hont.endLine_eq]
    exact hd
  have hgroup := exactly_group (n := 1) (isPunctuation_of_marked ht) hinside
    (isPunctuation_of_marked hk)
  rw [honk.endLine_eq] at hgroup
  exact expression_iff hgroup (.refl _)

namespace Subscript

variable {q : Subscript file} {qs : List (Subscript file)}

/-- The tree of an operand that is subscripted again and again. -/
def tower (x : Expr) (qs : List (Subscript file)) : Expr :=
  qs.foldl (fun x q => .index (.ofWord file (marked .openBracket)) x q.tree) x

theorem tower_congr (h : y.unplaced = x.unplaced) :
    (tower y qs).unplaced = (tower x qs).unplaced := by
  induction qs generalizing x y with
  | nil => exact h
  | cons q qs ih => exact ih (Expr.unplaced_index rfl h rfl)

/-- The depth that the subscripts need. -/
def needed (qs : List (Subscript file)) : Nat := qs.foldr (fun q d => max q.depth d + 1) 0

end Subscript

open Subscript

/-- The words of lists of subscripts, or of one the first subscripts of which have been read. -/
inductive Brackets (file : String) : Bool → List (Subscript file) → List Word → Prop
  | ended : Brackets file false [] []
  | closed {qs ws} : Brackets file false qs ws →
      Brackets file true qs (marked .closeBracket :: ws)
  | opened {qs ws} (q : Subscript file) : Brackets file true qs ws →
      Brackets file false (q :: qs) (marked .openBracket :: (q.words ++ ws))
  | next {qs ws} (q : Subscript file) : Brackets file true qs ws →
      Brackets file true (q :: qs) (marked .comma :: (q.words ++ ws))

variable {qs : List (Subscript file)}

theorem Brackets.shuts (h : Brackets file true qs ws) (hts : ts.map Token.word = ws) :
    ∀ t ∈ (ts ++ us).head?, t.shuts = true := by
  have hhead : ∀ {p : Punctuation} {vs : List Word}, ts.map Token.word = marked p :: vs →
      ((Link.ofKind? (.punctuation p)).isNone && TokenKind.punctuation p != .identifier) = true →
      ∀ t ∈ (ts ++ us).head?, t.shuts = true := by
    intro p vs hwords hp t ht
    obtain ⟨u, us', rfl, hu, -⟩ := List.map_eq_cons_iff.mp hwords
    obtain rfl := Option.some.inj ht
    exact Token.shuts_of_kind (kind_of_word hu) hp
  cases h with
  | closed => exact hhead hts rfl
  | next => exact hhead hts rfl

/-- A subscript behind a bracket or a comma. -/
theorem Subscript.read_behind (q : Subscript file) (ht : t.On file 1)
    (hus : us.map Token.word = q.words) (hon : ∀ t ∈ us ++ ts, t.On file 1)
    (hlast : last.isEnd = true) (hshut : ∀ t ∈ (ts ++ [last]).head?, t.shuts = true) :
    ∃ y, y.unplaced = q.tree.unplaced ∧
      Exactly q.depth (.expression Context.file.delimit loosest) y ⟨t.endLine, us ++ ts ++ [last]⟩
        ⟨1, ts ++ [last]⟩ := by
  have hclear := Token.clear_of_on hon hlast
  rw [ht.endLine_eq]
  rw [List.append_assoc] at hclear ⊢
  exact q.read true hus (List.forall_mem_append.mp hon).1 hshut hclear

/-- Behind whatever tree, lists of subscripts are read as its tower. -/
theorem Brackets.exactly {isOpen : Bool} {b : Option Token} (left : Expr)
    (h : Brackets file isOpen qs ws)
    (hlast : last.isEnd = true) (hts : ts.map Token.word = ws) (hon : ∀ t ∈ ts, t.On file 1)
    (hb : b.map Token.unplaced =
      if isOpen then some (.ofWord file (marked .openBracket)) else none) :
    ∃ x, x.unplaced = (tower left qs).unplaced ∧
      Exactly (needed qs) (.links .file loosest b left) x ⟨1, ts ++ [last]⟩ ⟨1, [last]⟩ := by
  have hnone : (none : Option Token).map Token.unplaced = none := rfl
  induction h generalizing ts b left with
  | ended =>
      obtain rfl := List.map_eq_nil_iff.mp hts
      obtain rfl := Option.map_eq_none_iff.mp hb
      exact ⟨left, rfl, exactly_stop (link?_end hlast)⟩
  | closed _ ih =>
      obtain ⟨t, ts, rfl, ht, hts⟩ := List.map_eq_cons_iff.mp hts
      rw [List.forall_mem_cons] at hon
      obtain ⟨o, rfl, -⟩ := Option.map_eq_some_iff.mp hb
      obtain ⟨x, hx, hd⟩ := ih left hts hon.2 hnone
      have hclose : Leads .file loosest 0 0 ⟨some o, left, ⟨1, t :: (ts ++ [last])⟩⟩
          ⟨none, left, ⟨t.endLine, ts ++ [last]⟩⟩ := leads_close (isPunctuation_of_marked ht)
      rw [hon.1.endLine_eq] at hclose
      have hall := hclose.exactly hd
      rw [Nat.add_zero, Nat.zero_max] at hall
      exact ⟨x, hx, hall⟩
  | opened q hrest ih =>
      obtain ⟨o, _, rfl, ho, hts⟩ := List.map_eq_cons_iff.mp hts
      obtain ⟨us, ts, rfl, hus, hts⟩ := List.map_eq_append_iff.mp hts
      rw [List.forall_mem_cons] at hon
      obtain rfl := Option.map_eq_none_iff.mp hb
      obtain ⟨y, hy, hq⟩ := q.read_behind hon.1 hus hon.2 hlast (hrest.shuts hts)
      have hlink : (⟨1, o :: (us ++ ts ++ [last])⟩ : Spot).link? .file loosest = some .index :=
        link?_of_kind (by rw [kind_of_word ho]; rfl) (by decide) hon.1.line_eq
      have ho : o.unplaced = .ofWord file (marked .openBracket) := ho ▸ hon.1.unplaced
      have hbracket : (some o).map Token.unplaced = _ := congrArg some ho
      obtain ⟨x, hx, hd⟩ := ih (.index o left y) hts (List.forall_mem_append.mp hon.2).2 hbracket
      refine ⟨x, hx.trans (tower_congr (Expr.unplaced_index ho rfl hy)), ?_⟩
      have hall := (leads_index hlink hq).exactly hd
      rwa [Nat.add_max_add_right] at hall
  | next q hrest ih =>
      obtain ⟨t, _, rfl, ht, hts⟩ := List.map_eq_cons_iff.mp hts
      obtain ⟨us, ts, rfl, hus, hts⟩ := List.map_eq_append_iff.mp hts
      rw [List.forall_mem_cons] at hon
      obtain ⟨o, rfl, ho⟩ := Option.map_eq_some_iff.mp hb
      obtain ⟨y, hy, hq⟩ := q.read_behind hon.1 hus hon.2 hlast (hrest.shuts hts)
      obtain ⟨x, hx, hd⟩ := ih (.index o left y) hts (List.forall_mem_append.mp hon.2).2 hb
      refine ⟨x, hx.trans (tower_congr (Expr.unplaced_index ho rfl hy)), ?_⟩
      have hlink : Leads .file loosest (q.depth + 1) 1
          ⟨some o, left, ⟨1, t :: (us ++ ts ++ [last])⟩⟩
          ⟨some o, .index o left y, ⟨1, ts ++ [last]⟩⟩ :=
        leads_subscript (isPunctuation_of_marked ht) hq
      have hall := hlink.exactly hd
      rwa [Nat.add_max_add_right] at hall

/-- Behind an operand lists of subscripts are read as its tower. How the subscripts are put into
lists makes no difference to the depth that is needed. -/
theorem Heads.exactly (h : Heads file ws x) (qs : List (Subscript file)) :
    ∃ d, ∀ ⦃ts vs last⦄, Brackets file false qs vs → ts.map Token.word = ws ++ vs →
      (∀ t ∈ ts, t.On file 1) → last.isEnd = true → ∃ y, y.unplaced = (tower x qs).unplaced ∧
        Exactly d (.expression .file loosest) y ⟨1, ts ++ [last]⟩ ⟨1, [last]⟩ := by
  obtain ⟨d, n, hhead⟩ := h
  refine ⟨max d (needed qs + n), fun ts vs last hvs hts hon hlast => ?_⟩
  have hclear := Token.clear_of_on hon hlast
  obtain ⟨us, ts, rfl, hus, hts⟩ := List.map_eq_append_iff.mp hts
  obtain ⟨honus, honts⟩ := List.forall_mem_append.mp hon
  rw [List.append_assoc] at hclear ⊢
  obtain ⟨y, hy, hiff⟩ := hhead hus honus hclear
  have hnone : (none : Option Token).map Token.unplaced = none := rfl
  obtain ⟨z, hz, hd⟩ := hvs.exactly y hlast hts honts hnone
  refine ⟨z, hz.trans (tower_congr hy), fun k v e => ?_⟩
  rw [hiff k v e]
  constructor
  · rintro ⟨hle, j, rfl, hj⟩
    obtain ⟨hle', rfl, rfl⟩ := (hd _ _ _).mp hj
    exact ⟨by omega, rfl, rfl⟩
  · rintro ⟨hle, rfl, rfl⟩
    exact ⟨by omega, k - n, by omega, hd.derives (by omega)⟩

end Grammar

end Clipper
