import Clipper.Proofs.Breaks.Phrases
import Clipper.Proofs.Grammar.Climbing
import Clipper.Proofs.Rendering.Words

/-!
A stretch of text that stands in two places, on one line in each. In front of it and behind it the
places have nothing in common but that, perhaps, nothing behind it goes on with an expression. What
the grammar asks about the stretch has the same answer in both.
-/

namespace Clipper

open Correspondence

/-! ### Words on a line -/

/-- A token of a file, on this line, that can be taken. -/
structure Token.On (file : String) (l : Nat) (t : Token) : Prop where
  file_eq : t.file = file
  line_eq : t.line = l
  endLine_eq : t.endLine = l
  legal : t.isIllegal = false
  goesOn : t.isEnd = false
  written : t.literal.isEmpty = false

/-- A word of a file, without a place. -/
def Token.ofWord (file : String) (w : Word) : Token := ⟨w.1, w.2, ⟨0, 0⟩, 0, 0, file⟩

namespace Token

variable {file : String} {l l' : Nat} {t u : Token} {ts us : List Token} {w : Word}

theorem On.unplaced (h : t.On file l) : t.unplaced = ofWord file t.word := by
  simp [Token.unplaced, ofWord, word, h.file_eq]

theorem On.verbatim (h : t.On file l) (h' : u.On file l') (hword : t.word = u.word) :
    verbatim.token t u :=
  ⟨⟨congrArg Prod.fst hword, congrArg Prod.snd hword⟩, h.file_eq.trans h'.file_eq.symm, h.goesOn,
    h.written⟩

theorem forall₂_verbatim (hts : ∀ t ∈ ts, t.On file l) (hus : ∀ u ∈ us, u.On file l')
    (hwords : us.map word = ts.map word) : List.Forall₂ Correspondence.verbatim.token ts us := by
  induction ts generalizing us with
  | nil =>
      obtain rfl := List.map_eq_nil_iff.mp hwords
      exact .nil
  | cons t ts ih =>
      obtain ⟨u, us, rfl, hu, hwords⟩ := List.map_eq_cons_iff.mp hwords
      rw [List.forall_mem_cons] at hts hus
      exact .cons (hts.1.verbatim hus.1 hu.symm) (ih hts.2 hus.2 hwords)

theorem strung_of_on (hts : ∀ t ∈ ts, t.On file l) : Grammar.Strung l ts l := by
  induction ts with
  | nil => exact .nil
  | cons t ts ih =>
      rw [List.forall_mem_cons] at hts
      exact .cons hts.1.line_eq (hts.1.endLine_eq ▸ ih hts.2)

end Token

/-! ### Places -/

/-- Behind an expression such a token goes on with nothing: it is no link, and no name of a
counter. -/
def Token.shuts (t : Token) : Bool := (Grammar.Link.ofKind? t.kind).isNone && t.kind != .identifier

theorem Token.shuts_of_kind {t : Token} {k : TokenKind} (ht : t.kind = k)
    (hk : ((Grammar.Link.ofKind? k).isNone && k != .identifier) = true) :
    t.shuts = true := by
  rw [Token.shuts, ht]
  exact hk

theorem Token.shuts_last {last : Token} (h : last.isEnd = true) :
    ∀ t ∈ [last].head?, t.shuts = true := by
  intro t ht
  obtain rfl := Option.some.inj ht
  exact shuts_of_kind (beq_iff_eq.mp h) rfl

/-- Inside of delimiters, or outside of them. -/
def Context.inside (c : Context) (b : Bool) : Context := { c with delimited := b }

theorem Correspondence.verbatim_symm {t u : Token} (h : verbatim.token t u) :
    verbatim.token u t := by
  obtain ⟨⟨hkind, hliteral⟩, hfile, hopen, hwritten⟩ := h
  refine ⟨⟨hkind.symm, hliteral.symm⟩, hfile.symm, ?_, ?_⟩
  · rwa [Token.isEnd, ← hkind]
  · rwa [← hliteral]

/-- What stands behind a stretch of text in one place and in the other. -/
structure Setting where
  behind : List Token
  behind' : List Token
  /-- The lines on which the stretch ends. -/
  line : Nat
  line' : Nat
  /-- It is known that nothing there goes on with an expression. -/
  shut : Bool
  shuts : shut = true → ∀ t ∈ behind.head?, t.shuts = true
  shuts' : shut = true → ∀ t ∈ behind'.head?, t.shuts = true

namespace Setting

/-- How many tokens of the stretch have to be left where it is asked for a link. -/
def margin (S : Setting) : Nat := if S.shut then 0 else 1

theorem margin_le (S : Setting) : S.margin ≤ 1 := by
  unfold margin
  split <;> omega

theorem shut_of_le {S : Setting} {n : Nat} (h : n + S.margin ≤ n) : S.shut = true := by
  unfold margin at h
  split at h
  · assumption
  · omega

/-- Two spots inside of the stretch, or behind it, that have come equally far. -/
inductive Spots (S : Setting) : Spot → Spot → Prop
  | behind : Spots S ⟨S.line, S.behind⟩ ⟨S.line', S.behind'⟩
  | step {t u : Token} {ts us : List Token} : verbatim.token t u →
      Spots S ⟨t.endLine, ts⟩ ⟨u.endLine, us⟩ → Spots S ⟨t.line, t :: ts⟩ ⟨u.line, u :: us⟩

/-- The places the other way round. -/
def swap (S : Setting) : Setting :=
  ⟨S.behind', S.behind, S.line', S.line, S.shut, S.shuts', S.shuts⟩

/-- Where the same words stand on a line in both places, the places come equally far. -/
theorem spots_of_strung {S : Setting} {ts us : List Token} {l l' : Nat}
    (h : List.Forall₂ verbatim.token ts us) (hts : Grammar.Strung l ts S.line)
    (hus : Grammar.Strung l' us S.line') :
    S.Spots ⟨l, ts ++ S.behind⟩ ⟨l', us ++ S.behind'⟩ := by
  induction h generalizing l l' with
  | nil =>
      cases hts
      cases hus
      exact .behind
  | cons htu _ ih =>
      cases hts with
      | cons hl hts =>
          cases hus with
          | cons hl' hus =>
              subst hl hl'
              exact .step htu (ih hts hus)

/-- Words of a file on one line each. -/
theorem spots_of_on {S : Setting} {file : String} {ts us : List Token}
    (hts : ∀ t ∈ ts, t.On file S.line) (hus : ∀ t ∈ us, t.On file S.line')
    (hwords : us.map Token.word = ts.map Token.word) :
    S.Spots ⟨S.line, ts ++ S.behind⟩ ⟨S.line', us ++ S.behind'⟩ :=
  spots_of_strung (Token.forall₂_verbatim hts hus hwords) (Token.strung_of_on hts)
    (Token.strung_of_on hus)

/-- The stretch is followed by the end of the text in the one place, and by nothing that goes on in
the other. -/
def ofLast {last : Token} {behind : List Token} (l l' : Nat) (hlast : last.isEnd = true)
    (hbehind : ∀ t ∈ behind.head?, t.shuts = true) : Setting :=
  ⟨[last], behind, l, l', true, fun _ => Token.shuts_last hlast, fun _ => hbehind⟩

namespace Spots

variable {S : Setting} {s w : Spot} {c : Context} {l : Nat} {t n : Token} {ts : List Token}

/-! ### Tokens -/

/-- In front of the end of the stretch. -/
theorem front (h : S.Spots s w) (hs : S.behind.length < s.rest.length) :
    ∃ t u ts us, s = ⟨t.line, t :: ts⟩ ∧ w = ⟨u.line, u :: us⟩ ∧ verbatim.token t u ∧
      S.Spots ⟨t.endLine, ts⟩ ⟨u.endLine, us⟩ := by
  cases h with
  | behind => exact absurd hs (Nat.lt_irrefl _)
  | step htu h => exact ⟨_, _, _, _, rfl, rfl, htu, h⟩

theorem taken (h : S.Spots ⟨l, t :: ts⟩ w) (hs : S.behind.length ≤ ts.length) :
    ∃ u us, w = ⟨u.line, u :: us⟩ ∧ t.line = l ∧ verbatim.token t u ∧
      S.Spots ⟨t.endLine, ts⟩ ⟨u.endLine, us⟩ := by
  obtain ⟨_, u, _, us, hcons, rfl, htu, hv⟩ := h.front (Nat.lt_succ_of_le hs)
  obtain ⟨rfl, hrest⟩ := Spot.mk.inj hcons
  obtain ⟨rfl, rfl⟩ := List.cons.inj hrest
  exact ⟨u, us, rfl, rfl, htu, hv⟩

theorem takenBoth (h : S.Spots ⟨l, t :: n :: ts⟩ w) (hs : S.behind.length ≤ ts.length) :
    ∃ u v us, w = ⟨u.line, u :: v :: us⟩ ∧ verbatim.token t u ∧ verbatim.token n v ∧
      S.Spots ⟨n.endLine, ts⟩ ⟨v.endLine, us⟩ := by
  obtain ⟨u, _, rfl, -, htu, hbehind⟩ := h.taken (Nat.le_succ_of_le hs)
  obtain ⟨v, us, hcons, -, hnv, hv⟩ := hbehind.taken hs
  obtain ⟨-, rfl⟩ := Spot.mk.inj hcons
  exact ⟨u, v, us, rfl, htu, hnv, hv⟩

theorem length_le (h : S.Spots s w) : S.behind.length ≤ s.rest.length := by
  induction h with
  | behind => exact Nat.le_refl _
  | step _ _ ih => exact Nat.le_succ_of_le ih

/-- Behind the stretch in one place, behind it in the other. -/
theorem arrived (h : S.Spots s w) (hs : s.rest.length = S.behind.length) :
    s = ⟨S.line, S.behind⟩ ∧ w = ⟨S.line', S.behind'⟩ := by
  cases h with
  | behind => exact ⟨rfl, rfl⟩
  | step _ h =>
      have := h.length_le
      simp only [List.length_cons] at hs this
      omega

/-- Behind a spot the same number of tokens is left of the stretch. -/
theorem remaining (h : S.Spots s w) :
    s.rest.length + S.behind'.length = w.rest.length + S.behind.length := by
  induction h with
  | behind => exact Nat.add_comm ..
  | step _ _ ih =>
      simp only [List.length_cons] at *
      omega

theorem swapped (h : S.Spots s w) : S.swap.Spots w s := by
  induction h with
  | behind => exact .behind
  | step htu _ ih => exact .step (verbatim_symm htu) ih

/-! ### Questions about the next token -/

section Inside

variable (h : S.Spots s w) (hs : S.behind.length < s.rest.length)

include h hs

theorem next_eq (p : TokenKind → Bool) : w.next (fun t => p t.kind) = s.next fun t => p t.kind := by
  obtain ⟨t, u, _, _, rfl, rfl, htu, -⟩ := h.front hs
  simp [Spot.next, htu.1.1]

theorem blockEnds_eq (b : Bool) :
    w.blockEnds (c.inside b) = s.blockEnds c := by
  obtain ⟨t, u, _, _, rfl, rfl, htu, -⟩ := h.front hs
  simp [Spot.blockEnds, Context.inside, Token.isEnd, Token.isAny, htu.1.1]

theorem moreMembers_eq (b : Bool) :
    w.moreMembers (c.inside b) = s.moreMembers c := by
  obtain ⟨t, u, _, _, rfl, rfl, htu, -⟩ := h.front hs
  simp [Spot.moreMembers, Context.inside, Spot.next, Token.isEnd, Token.isAny, htu.1.1]

/-- On one line a statement ends where the text or a block does. -/
theorem stops_eq (b : Bool) : w.stops (c.inside b) = s.stops c := by
  obtain ⟨t, u, _, _, rfl, rfl, htu, -⟩ := h.front hs
  simp [Spot.stops, Context.inside, Token.isEnd, Token.isAny, htu.1.1]

/-- What is asked of the next token if it stands on the line. -/
theorem onLine_eq (p : TokenKind → Bool) :
    w.next (fun t => p t.kind && t.line == w.line) =
      s.next fun t => p t.kind && t.line == s.line := by
  obtain ⟨t, u, _, _, rfl, rfl, htu, -⟩ := h.front hs
  simp [Spot.next, htu.1.1]

end Inside

/-- Inside of the stretch the links are the same, and behind it there is none if that is known. -/
theorem link?_eq (h : S.Spots s w) (hs : S.behind.length + S.margin ≤ s.rest.length) (p : Nat)
    (b : Bool) : w.link? (c.inside b) p = s.link? c p := by
  have hnone : ∀ {ts : List Token} {c : Context} {l : Nat}, (∀ t ∈ ts.head?, t.shuts = true) →
      (⟨l, ts⟩ : Spot).link? c p = none := by
    intro ts c l hts
    cases ts with
    | nil => rfl
    | cons t ts =>
        have ht := hts t rfl
        rw [Token.shuts, Bool.and_eq_true, Option.isNone_iff_eq_none] at ht
        simp [Spot.link?, ht.1]
  cases h with
  | behind =>
      have hshut := shut_of_le hs
      rw [hnone (S.shuts hshut), hnone (S.shuts' hshut)]
  | step htu _ => simp [Spot.link?, htu.1.1]

theorem link?_taken (h : S.Spots ⟨l, t :: ts⟩ w) (hs : S.behind.length ≤ ts.length) (p : Nat)
    (b : Bool) : w.link? (c.inside b) p = (⟨l, t :: ts⟩ : Spot).link? c p := by
  have := S.margin_le
  refine h.link?_eq ?_ p b
  simp only [List.length_cons]
  omega

/-- Behind a loop its counter is repeated in both places or in neither. -/
theorem counter_eq (h : S.Spots s w) (hs : S.behind.length + S.margin ≤ s.rest.length) :
    w.next (fun t => t.kind == .identifier && t.line == w.line) =
      s.next fun t => t.kind == .identifier && t.line == s.line := by
  have hnone : ∀ {ts : List Token} {l : Nat}, (∀ t ∈ ts.head?, t.shuts = true) →
      (⟨l, ts⟩ : Spot).next (fun t => t.kind == .identifier && t.line == l) = false := by
    intro ts l hts
    cases ts with
    | nil => rfl
    | cons t ts =>
        have ht := hts t rfl
        rw [Token.shuts, Bool.and_eq_true, bne_iff_ne] at ht
        simp [Spot.next, ht.2]
  cases h with
  | behind =>
      have hshut := shut_of_le hs
      exact (hnone (S.shuts' hshut)).trans (hnone (S.shuts hshut)).symm
  | step htu _ => simp [Spot.next, htu.1.1]

end Spots

end Setting

end Clipper
