import Clipper.Proofs.Setting.Operands

/-!
Lists of declarators. Where nothing goes on behind it each declarator is read as if it stood alone,
so a word of storage makes the same statements of all of them on one line as of each on its own.
-/

namespace Clipper

open Correspondence Grammar Layout

/-- A name that is declared, alone or with a first value. -/
inductive Declarator (file source : String) : Prop
  | bare {n : String} : Inline file source → words file source = [(.identifier, n)] →
      Declarator file source
  | initialized {n sign value : String} {x : Expr} : Inline file source →
      StandsAlone file value x →
      words file source = (.identifier, n) :: (.operator .assign, sign) :: words file value →
      Declarator file source

namespace Grammar

variable {file : String} {l l' : Nat} {t last : Token} {ts us behind : List Token} {x : Expr}
  {w : Word} {ws : List Word} {wss : List (List Word)}

/-! ### One declarator -/

/-- A declared name and its first value, without the places of their tokens. -/
def unplacedDeclarator (d : Name × Option Expr) : Name × Option Expr :=
  ((Relabelling.all Token.unplaced).name d.1, (Relabelling.all Token.unplaced).ifAny d.2)

/-- Words that declare a name. Where nothing goes on behind them they are read so on every line. -/
structure Declared (file : String) where
  words : List Word
  declares : Name × Option Expr
  read : ∀ {l : Nat} {ts behind : List Token}, ts.map Token.word = words →
    (∀ t ∈ ts, t.On file l) → (∀ t ∈ behind.head?, t.shuts = true) →
    ∃ d, unplacedDeclarator d = declares ∧
      Derives false maxDepth (.declarator .file d) ⟨l, ts ++ behind⟩ ⟨l, behind⟩

theorem name_unplaced (h : t.On file l) :
    (Relabelling.all Token.unplaced).name ⟨t⟩ =
      (Relabelling.all Token.unplaced).name ⟨.ofWord file t.word⟩ := by
  have hfile := h.file_eq
  simp [Relabelling.name, Relabelling.all, Token.unplaced, Token.ofWord, Token.word, Name.isMissing,
    Name.text, Name.missing, Token.implied, hfile]

/-- Nothing is assigned where nothing goes on. -/
theorem next_assign (h : ∀ t ∈ behind.head?, t.shuts = true) :
    (⟨l, behind⟩ : Spot).next (·.isOperator .assign) = false := by
  cases behind with
  | nil => rfl
  | cons t behind =>
      have ht := h t rfl
      rw [Spot.next, List.head?_cons, Option.any_some, Token.isOperator, beq_eq_false_iff_ne]
      intro hkind
      rw [Token.shuts, hkind] at ht
      cases ht

/-- On one line every token ends where the next one is looked for. -/
theorem behind_iff {lax : Bool} {m : Nat} {q : Phrase} {s : Spot} (h : t.On file l) :
    Derives lax m q ⟨t.endLine, ts⟩ s ↔ Derives lax m q ⟨l, ts⟩ s := by
  rw [h.endLine_eq]

/-- A value that is read up to the end of its text is read in front of everything that does not go
on with it. -/
theorem Derives.moved {m p : Nat}
    (h : Derives false m (.expression .file p x) ⟨l, ts ++ [last]⟩ ⟨l, [last]⟩)
    (hts : ∀ t ∈ ts, t.On file l) (hlast : last.isEnd = true)
    (hwords : us.map Token.word = ts.map Token.word) (hus : ∀ t ∈ us, t.On file l')
    (hbehind : ∀ t ∈ behind.head?, t.shuts = true) :
    ∃ y, y.unplaced = x.unplaced ∧
      Derives false m (.expression .file p y) ⟨l', us ++ behind⟩ ⟨l', behind⟩ := by
  let S : Setting := .ofLast l l' hlast hbehind
  have hspots : S.Spots ⟨l, ts ++ [last]⟩ ⟨l', us ++ behind⟩ := Setting.spots_of_on hts hus hwords
  obtain ⟨y, w, hy, hw, hd⟩ := h.carried S hspots (Nat.le_refl 1)
  obtain ⟨-, rfl⟩ := hw.arrived rfl
  exact ⟨y, Expr.unplaced_of_verbatim hy, hd false⟩

end Grammar

theorem Declarator.exists_declared {file source : String} (h : Declarator file source) :
    ∃ q : Declared file, Writes file source q.words := by
  cases h with
  | @bare n hinline hwords =>
      refine ⟨⟨_, unplacedDeclarator (⟨.ofWord file (.identifier, n)⟩, none),
        fun {l ts behind} hts hon hbehind => ?_⟩, hinline, hwords, by simp, ?_⟩
      · obtain ⟨t, rfl, ht⟩ := List.map_eq_singleton_iff.mp hts
        have hont := hon t (List.mem_singleton_self t)
        have hkind : t.kind = .identifier := kind_of_word ht
        have hd : Derives false maxDepth (.declarator .file (⟨t⟩, none)) ⟨l, t :: behind⟩
            ⟨t.endLine, behind⟩ := .declared hkind (next_assign hbehind)
        rw [hont.endLine_eq] at hd
        refine ⟨_, ?_, hd⟩
        rw [unplacedDeclarator, name_unplaced hont, ht]
        rfl
      · exact fun w hw => by simp [List.mem_singleton.mp hw]
  | @initialized n sign value x hinline hvalue hwords =>
      refine ⟨⟨_, unplacedDeclarator (⟨.ofWord file (.identifier, n)⟩, some x),
        fun {l ts behind} hts hon hbehind => ?_⟩, hinline, hwords, by simp, ?_⟩
      · obtain ⟨t, _, rfl, ht, hts⟩ := List.map_eq_cons_iff.mp hts
        obtain ⟨u, us, rfl, hu, hus⟩ := List.map_eq_cons_iff.mp hts
        rw [List.forall_mem_cons, List.forall_mem_cons] at hon
        obtain ⟨hont, honu, honus⟩ := hon
        have hkind : t.kind = .identifier := kind_of_word ht
        have hsign : u.isOperator .assign = true := by simp [Token.isOperator, kind_of_word hu]
        obtain ⟨y, hy, hd⟩ := hvalue.derives.moved hvalue.on
          (TokenStream.closed_ofText file value).last_isEnd hus honus hbehind
        refine ⟨(⟨t⟩, some y), ?_, .initialized hkind hsign ((behind_iff honu).mpr hd)⟩
        rw [unplacedDeclarator, name_unplaced hont, ht]
        exact congrArg (fun z => (_, some z)) hy
      · intro w hw
        rw [List.mem_cons, List.mem_cons] at hw
        rcases hw with rfl | rfl | hw
        · simp
        · simp
        · exact hvalue.legal w hw

/-! ### Lines of declarators -/

namespace Grammar

variable {file : String} {l : Nat} {t last : Token} {ts us behind : List Token} {w : Word}
  {ws : List Word} {wss : List (List Word)} {qs : List (Declared file)}

/-- The words of declarators with commas between them. -/
inductive Listed (file : String) : List (Declared file) → List Word → Prop
  | last (q : Declared file) : Listed file [q] q.words
  | more {ps vs} (q : Declared file) : Listed file ps vs →
      Listed file (q :: ps) (q.words ++ marked .comma :: vs)

/-- The words of lines, each with a list of declarators behind the same word. -/
inductive Rows (file : String) (w : Word) : List (Declared file) → List (List Word) → Prop
  | nil : Rows file w [] []
  | row {ps rs vs vss} : Listed file ps vs → Rows file w rs vss →
      Rows file w (ps ++ rs) ((w :: vs) :: vss)

/-- Here the text ends or something begins on another line that does not go on with an expression
or a list. -/
structure Below (l : Nat) (behind : List Token) : Prop where
  shuts : ∀ t ∈ behind.head?, t.shuts = true
  comma : (⟨l, behind⟩ : Spot).next (·.isPunctuation .comma) = false
  stops : (⟨l, behind⟩ : Spot).stops .file = true

theorem Listed.derives (h : Listed file qs ws) (hts : ts.map Token.word = ws)
    (hon : ∀ t ∈ ts, t.On file l) (hbehind : Below l behind) :
    ∃ ds, ds.map unplacedDeclarator = qs.map Declared.declares ∧
      Derives false maxDepth (.declarators .file ds) ⟨l, ts ++ behind⟩ ⟨l, behind⟩ := by
  induction h generalizing ts with
  | last q =>
      obtain ⟨d, hd, hread⟩ := q.read hts hon hbehind.shuts
      exact ⟨[d], by simp [hd], .lastDeclarator hread hbehind.comma⟩
  | more q _ ih =>
      obtain ⟨us, _, rfl, hus, hts⟩ := List.map_eq_append_iff.mp hts
      obtain ⟨t, ts, rfl, ht, hts⟩ := List.map_eq_cons_iff.mp hts
      rw [List.forall_mem_append, List.forall_mem_cons] at hon
      obtain ⟨honus, hont, hon⟩ := hon
      have hshut : ∀ u ∈ (t :: (ts ++ behind)).head?, u.shuts = true := by
        intro u hu
        obtain rfl := Option.some.inj hu
        exact Token.shuts_of_kind (kind_of_word ht) rfl
      obtain ⟨d, hd, hread⟩ := q.read hus honus hshut
      obtain ⟨ds, hds, hrest⟩ := ih hts hon
      refine ⟨d :: ds, by simp [hd, hds], ?_⟩
      rw [List.append_assoc]
      exact .moreDeclarators hread (isPunctuation_of_marked ht) ((behind_iff hont).mpr hrest)

theorem kind_of_storage {k : TokenKind} (h : isStorage k = true) :
    k = .keyword .kwLocal ∨ k = .keyword .kwPublic ∨ k = .keyword .kwPrivate := by
  simpa [isStorage, or_assoc] using h

theorem below_last (hlast : last.isEnd = true) : Below l [last] := by
  have hkind : last.kind = .endOfInput := beq_iff_eq.mp hlast
  refine ⟨Token.shuts_last hlast, ?_, ?_⟩
  · simp [Spot.next, Token.isPunctuation, hkind]
  · simp [Spot.stops, hlast]

theorem below_storage (ht : isStorage t.kind = true) (hline : t.line ≠ l) :
    Below l (t :: behind) := by
  have hkind := kind_of_storage ht
  refine ⟨fun u hu => ?_, ?_, ?_⟩
  · obtain rfl := Option.some.inj hu
    rcases hkind with hkind | hkind | hkind <;> exact Token.shuts_of_kind hkind rfl
  · rcases hkind with hkind | hkind | hkind <;> simp [Spot.next, Token.isPunctuation, hkind]
  · simp [Spot.stops, hline]

/-- The lines one by one. -/
theorem exists_of_lines (h : Lines l (ws :: wss) ts) :
    ∃ us vs, ts = us ++ vs ∧ us.map Token.word = ws ∧ (∀ t ∈ us, t.line = l ∧ t.endLine = l) ∧
      Lines (l + 1) wss vs := by
  cases h with
  | cons hus hvs => exact ⟨_, _, rfl, rfl, hus, hvs⟩

theorem Rows.under (h : Rows file w qs wss) (hw : isStorage w.1 = true)
    (hts : Lines (l + 1) wss ts) (hlast : last.isEnd = true) : Below l (ts ++ [last]) := by
  cases h with
  | nil =>
      cases hts
      exact below_last hlast
  | row _ _ =>
      obtain ⟨us, vs, rfl, hus, hline, -⟩ := exists_of_lines hts
      obtain ⟨t, us, rfl, ht, -⟩ := List.map_eq_cons_iff.mp hus
      refine below_storage (kind_of_word ht ▸ hw) ?_
      have hnext := (hline t List.mem_cons_self).1
      omega

/-- What a word of storage makes of a declared name, without the places of their tokens. -/
def declaration (file : String) (w : Word) (d : Name × Option Expr) : Stmt :=
  .variable (.ofWord file w) (storageOf (.ofWord file w)) d.1 d.2

theorem stmts_unplaced (ht : t.On file l) (ds : List (Name × Option Expr)) :
    (Relabelling.all Token.unplaced).stmts (ds.map fun d => .variable t (storageOf t) d.1 d.2) =
      (ds.map unplacedDeclarator).map (declaration file t.word) := by
  rw [Relabelling.stmts_eq_map, List.map_map, List.map_map]
  apply List.map_congr_left
  intro d _
  rw [Function.comp_apply, Function.comp_apply, declaration, ← ht.unplaced]
  rfl

/-- One line. -/
theorem Listed.statement (l₀ : Nat) (h : Listed file qs ws) (ht : t.On file l)
    (hstorage : isStorage t.kind = true) (hts : ts.map Token.word = ws)
    (hon : ∀ t ∈ ts, t.On file l) (hbehind : Below l behind) :
    ∃ ss, (Relabelling.all Token.unplaced).stmts ss =
        (qs.map Declared.declares).map (declaration file t.word) ∧
      Derives false maxDepth (.statement .file ss) ⟨l₀, t :: (ts ++ behind)⟩ ⟨l, behind⟩ := by
  obtain ⟨ds, hds, hread⟩ := h.derives hts hon hbehind
  exact ⟨_, hds ▸ stmts_unplaced ht ds,
    .variableList hstorage ((behind_iff ht).mpr hread) hbehind.stops⟩

theorem blockEnds_storage (ht : isStorage t.kind = true) :
    (⟨l, t :: ts⟩ : Spot).blockEnds .file = false := by
  rcases kind_of_storage ht with hkind | hkind | hkind <;>
    simp [Spot.blockEnds, Token.isEnd, Token.isAny, Context.file, TokenKind.keyword?, hkind]

/-- The lines are read one by one, and together they declare all the names. -/
theorem Rows.derives (l₀ : Nat) (h : Rows file w qs wss) (hw : isStorage w.1 = true)
    (hts : Lines l wss ts) (hon : ∀ t ∈ ts, ∀ l, t.line = l ∧ t.endLine = l → t.On file l)
    (hlast : last.isEnd = true) :
    ∃ ss l', (Relabelling.all Token.unplaced).stmts ss =
        (qs.map Declared.declares).map (declaration file w) ∧
      Derives false maxDepth (.statements .file ss) ⟨l₀, ts ++ [last]⟩ ⟨l', [last]⟩ := by
  induction h generalizing l l₀ ts with
  | nil =>
      cases hts
      exact ⟨[], l₀, rfl, .noStatements (by simp [Spot.blockEnds, hlast])⟩
  | row hlisted hrows ih =>
      obtain ⟨us, vs, rfl, hwords, hline, hvs⟩ := exists_of_lines hts
      obtain ⟨honus, honvs⟩ := List.forall_mem_append.mp hon
      have honline : ∀ u ∈ us, u.On file l := fun u hu => honus u hu l (hline u hu)
      obtain ⟨t, us, rfl, rfl, hus⟩ := List.map_eq_cons_iff.mp hwords
      rw [List.forall_mem_cons] at honline
      obtain ⟨ss, hss, hread⟩ := hlisted.statement l₀ honline.1 hw hus honline.2
        (hrows.under hw hvs hlast)
      obtain ⟨ss', l', hss', hbelow⟩ := ih l hvs honvs
      have hall := Derives.statements (blockEnds_storage hw) hread hbelow
      refine ⟨ss ++ ss', l', ?_, ?_⟩
      · rw [Relabelling.stmts_eq_map] at *
        rw [List.map_append, hss, hss', ← List.map_append, ← List.map_append]
      · rw [List.append_assoc]
        exact hall

end Grammar

end Clipper
