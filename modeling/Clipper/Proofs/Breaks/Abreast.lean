import Clipper.Proofs.Breaks.Enclosure
import Clipper.Proofs.Content.Phrases
import Clipper.Proofs.Grammar.Completeness.Expression
import Clipper.Proofs.Likeness.Relabelling

/-!
Two texts whose line breaks differ only where a line can be broken or not, from a place in each
of them on. The frames around the place say which of the questions that the grammar asks about
lines have the same answer in both.
-/

namespace Clipper

namespace Token

/-- The token without its place. -/
def unplaced (t : Token) : Token := { t with span := ⟨0, 0⟩, line := 0, column := 0 }

end Token

namespace Correspondence

/-- The same words with the same spelling. -/
def verbatim : Correspondence where
  token t u := t.SameLiteral u ∧ t.file = u.file ∧ t.isEnd = false ∧ t.literal.isEmpty = false
  ending t u := t.SameLiteral u ∧ t.file = u.file ∧ t.isEnd = true
  guards _ := True
  beyond := []
  earlier := []
  earlier' := []
  kind_eq := fun h => h.1.1
  literal_eq := fun h _ => h.1.2
  isEnd_token := fun h => h.2.2.1
  isEnd_ending := fun h => h.2.2
  ending_declares := fun h => .inl (by simpa [Token.isEnd, ← h.1.1] using h.2.2)
  guards_close := fun h _ => .inl (by simpa [Token.isEnd, ← h.1.1] using h.2.2)
  guards_append := fun _ => id
  guards_function := fun _ => trivial
  guards_class := fun _ => trivial

variable {t u : Token}

theorem unplaced_of_verbatim (h : verbatim.Meets t u) :
    t.unplaced = u.unplaced ∧ t.file = u.file := by
  rcases h with ⟨⟨hkind, hliteral⟩, hfile, -⟩ | ⟨⟨hkind, hliteral⟩, hfile, -⟩ <;>
    exact ⟨by simp [Token.unplaced, hkind, hliteral, hfile], hfile⟩

theorem kind_of_verbatim (h : verbatim.Meets t u) : t.kind = u.kind := h.elim (·.1.1) (·.1.1)

theorem relabels_verbatim : verbatim.Relabels (.all Token.unplaced) (.all Token.unplaced) where
  literal h := ⟨h.2.2.2, h.1.2 ▸ h.2.2.2⟩
  written h := (unplaced_of_verbatim (.inl h)).1
  placed h := (unplaced_of_verbatim h).1
  missing h := by
    have hfile := (unplaced_of_verbatim h).2
    simp [Relabelling.name, Relabelling.all, Name.missing, Name.isMissing, Name.text,
      Token.implied, Token.unplaced, hfile]
  receiver h := by
    have hfile := (unplaced_of_verbatim (.inl h)).2
    simp [Relabelling.all, Token.implied, Token.unplaced, hfile]

end Correspondence

/-! ### What is open around a place -/

/-- The words that close the body of a conditional or a loop. -/
def bodyWords : List Keyword := [.kwElseIf, .kwElse, .kwEndIf, .kwEndDo, .kwNext]

/-- A token of this kind opens and closes nothing. -/
def TokenKind.isNeutral : TokenKind → Bool
  | .keyword k => !bodyWords.contains k
  | .punctuation p => !p.opens && !p.closes
  | .endOfInput => false
  | _ => true

namespace Token

variable {t : Token}

theorem neutral_of_kind {k : TokenKind} (ht : t.kind = k) (hk : k.isNeutral = true) :
    t.kind.isNeutral = true := ht ▸ hk

theorem neutral_of_keyword {k : Keyword} (ht : t.isKeyword k = true)
    (hk : (TokenKind.keyword k).isNeutral = true) : t.kind.isNeutral = true :=
  neutral_of_kind (by simpa [isKeyword] using ht) hk

theorem neutral_of_punctuation {p : Punctuation} (ht : t.isPunctuation p = true)
    (hp : (TokenKind.punctuation p).isNeutral = true) : t.kind.isNeutral = true :=
  neutral_of_kind (by simpa [isPunctuation] using ht) hp

theorem neutral_of_operator {o : Operator} (ht : t.isOperator o = true) : t.kind.isNeutral = true :=
  neutral_of_kind (by simpa [isOperator] using ht) rfl

theorem neutral_of_storage (ht : Grammar.isStorage t.kind = true) : t.kind.isNeutral = true := by
  simp only [Grammar.isStorage, Bool.or_eq_true, beq_iff_eq] at ht
  rcases ht with (ht | ht) | ht <;> exact neutral_of_kind ht rfl

theorem isEnd_of_neutral (ht : t.kind.isNeutral = true) : t.isEnd = false :=
  Bool.eq_false_iff.mpr fun hend => by
    rw [beq_iff_eq.mp hend] at ht
    cases ht

theorem isAny_eq_false {ws : List Keyword} (ht : ∀ k, t.kind = .keyword k → k ∉ ws) :
    t.isAny ws = false := by
  cases hk : t.kind <;> simp_all [isAny, TokenKind.keyword?]

end Token

/-- The frames are those of a place inside this context. -/
def Context.Fits (c : Context) : List Frame → Prop
  | .bracket :: _ => c.delimited = true
  | .body closers :: _ => ∀ k ∈ closers, k ∈ bodyWords ∧ k ∈ c.closers
  | [] => True

namespace Frame

variable {t : Token} {fs : List Frame} {c : Context} {closers : List Keyword}

theorem leave_of_notAny (hfits : c.Fits fs) (ht : t.isAny c.closers = false) :
    leave t fs = fs := by
  match fs, hfits with
  | .body closers :: fs, hfits =>
      have hnot : t.isAny closers = false := Token.isAny_eq_false fun k hk hmem => by
        simp [Token.isAny, hk, TokenKind.keyword?, (hfits k hmem).2] at ht
      simp [leave, hnot]
  | .bracket :: _, _ | [], _ => rfl

theorem leave_of_noKeyword (ht : ∀ k, t.kind ≠ .keyword k) : leave t fs = fs := by
  match fs with
  | .body closers :: fs =>
      have hnot : t.isAny closers = false := Token.isAny_eq_false fun k hk => absurd hk (ht k)
      simp [leave, hnot]
  | .bracket :: _ | [] => rfl

theorem past_neutral (hfits : c.Fits fs) (ht : t.kind.isNeutral = true) : past t fs = fs := by
  have hleave : leave t fs = fs := by
    match fs, hfits with
    | .body closers :: fs, hfits =>
        have hnot : t.isAny closers = false := Token.isAny_eq_false fun k hk hmem => by
          simp [hk, TokenKind.isNeutral, (hfits k hmem).1] at ht
        simp [leave, hnot]
    | .bracket :: _, _ | [], _ => rfl
  rw [past, hleave, delimit]
  split
  · rename_i p hp
    simp only [hp, TokenKind.isNeutral, Bool.and_eq_true, Bool.not_eq_true'] at ht
    simp [ht]
  · rfl

theorem past_opening {p : Punctuation} (ht : t.isPunctuation p = true) (hp : p.opens = true) :
    past t fs = .bracket :: fs := by
  have hkind : t.kind = .punctuation p := by simpa [Token.isPunctuation] using ht
  rw [past, leave_of_noKeyword (by simp [hkind]), delimit, hkind]
  simp [hp]

theorem past_closing {p : Punctuation} (ht : t.isPunctuation p = true) (hp : p.closes = true) :
    past t (.bracket :: fs) = fs := by
  have hkind : t.kind = .punctuation p := by simpa [Token.isPunctuation] using ht
  have hopens : p.opens = false := by cases p <;> first | rfl | cases hp
  rw [past, leave_of_noKeyword (by simp [hkind]), delimit, hkind]
  simp [hp, hopens]

theorem past_word {k : Keyword} (ht : t.isKeyword k = true) (hk : k ∈ closers) :
    past t (.body closers :: fs) = fs := by
  have hkind : t.kind = .keyword k := by simpa [Token.isKeyword] using ht
  simp [past, leave, delimit, Token.isAny, hkind, TokenKind.keyword?, hk]

end Frame

namespace Enclosure

variable {e : Enclosure} {t : Token} {c : Context} {ts : List Token}

theorem entered_eq (hbodies : Grammar.Ahead e.bodies ts) (ht : t ∉ ts) : e.entered t = e := by
  unfold entered
  split
  · rename_i b bs hb
    refine if_neg fun hsame => ht ?_
    rw [Grammar.Ahead, hb] at hbodies
    exact hsame ▸ hbodies.subset List.mem_cons_self
  · rfl

theorem isFree_eq_false (hfits : c.Fits e.frames) (hc : c.delimited = false)
    (ht : t.isAny c.closers = false) : e.isFree t = false := by
  have haround : e.around t = e.frames := by
    rw [around, Frame.leave_of_notAny hfits ht, ite_self]
  have hhead : e.frames.head? ≠ some .bracket := fun hhead => by
    obtain ⟨fs, hfs⟩ := List.head?_eq_some_iff.mp hhead
    rw [hfs] at hfits
    exact Bool.eq_false_iff.mp hc hfits
  simp [isFree, haround, hhead]

theorem isFree_name (he : e.behindNext = true) (ht : t.kind = .identifier) :
    e.isFree t = false := by
  simp [isFree, he, ht]

end Enclosure

/-! ### Two texts side by side -/

/-- Where a line cannot be broken or not, both texts have a line break in front of what comes
next or neither has. -/
def Enclosure.Keeps (e : Enclosure) (s w : Spot) : Prop :=
  ∀ t ∈ s.rest.head?, ∀ u ∈ w.rest.head?, t.isEnd = false → e.isFree t = false →
    (t.line == s.line) = (u.line == w.line)

/-- What is left of two texts with the same words, of which the first has no word twice. -/
inductive Enclosure.Texts : Enclosure → List Token → List Token → Prop
  | ended {t u : Token} : Correspondence.verbatim.ending t u → Texts e [t] [u]
  | step {t u : Token} {ts us : List Token} : Correspondence.verbatim.token t u → t ∉ ts →
      (e.past t).Keeps ⟨t.endLine, ts⟩ ⟨u.endLine, us⟩ → Texts (e.past t) ts us →
      Texts e (t :: ts) (u :: us)

/-- Two spots that have come equally far. Where `kept` holds, it is known that the gap in front of
them was kept. -/
structure Enclosure.Abreast (e : Enclosure) (kept : Bool) (s w : Spot) : Prop where
  texts : e.Texts s.rest w.rest
  keeps : kept = true → e.Keeps s w

namespace Enclosure

open Correspondence Grammar

theorem Texts.meets {e : Enclosure} {ts us : List Token} (h : e.Texts ts us) :
    ∃ t u v w, ts = t :: v ∧ us = u :: w ∧ verbatim.Meets t u := by
  cases h with
  | ended ht => exact ⟨_, _, _, _, rfl, rfl, .inr ht⟩
  | step ht => exact ⟨_, _, _, _, rfl, rfl, .inl ht⟩

namespace Abreast

variable {e : Enclosure} {kept next : Bool} {fs : List Frame} {bs : List BlockBody} {l : Nat}
  {t : Token} {ts : List Token} {s w : Spot} {c : Context}

theorem forget (h : e.Abreast kept s w) : e.Abreast false s w := ⟨h.texts, nofun⟩

/-! #### Questions about kinds -/

/-- Both have come to a word of the same kind. -/
theorem next_eq (h : e.Abreast kept s w) (p : TokenKind → Bool) :
    w.next (fun t => p t.kind) = s.next fun t => p t.kind := by
  obtain ⟨t, u, _, _, ht, hu, hmeets⟩ := h.texts.meets
  simp [Spot.next, ht, hu, kind_of_verbatim hmeets]

theorem blockEnds_eq (h : e.Abreast kept s w) : w.blockEnds c = s.blockEnds c := by
  obtain ⟨t, u, _, _, ht, hu, hmeets⟩ := h.texts.meets
  simp [Spot.blockEnds, Token.isEnd, Token.isAny, ht, hu, kind_of_verbatim hmeets]

theorem moreMembers_eq (h : e.Abreast kept s w) : w.moreMembers c = s.moreMembers c := by
  obtain ⟨t, u, _, _, ht, hu, hmeets⟩ := h.texts.meets
  simp [Spot.moreMembers, Spot.next, Token.isEnd, Token.isAny, ht, hu, kind_of_verbatim hmeets]

/-! #### Questions about lines -/

/-- Outside of delimiters a statement ends in both texts or in neither. -/
theorem stops_eq (h : e.Abreast true s w) (hfits : c.Fits e.frames) (hc : c.delimited = false) :
    w.stops c = s.stops c := by
  obtain ⟨t, u, _, _, ht, hu, hmeets⟩ := h.texts.meets
  have hkind := kind_of_verbatim hmeets
  have hany : u.isAny c.closers = t.isAny c.closers := by simp [Token.isAny, hkind]
  have hend : u.isEnd = t.isEnd := by simp [Token.isEnd, hkind]
  cases hanyt : t.isAny c.closers with
  | true => simp [Spot.stops, ht, hu, hany, hanyt]
  | false =>
      cases hendt : t.isEnd with
      | true => simp [Spot.stops, ht, hu, hend, hendt]
      | false =>
          have hline := h.keeps rfl t (by simp [ht]) u (by simp [hu]) hendt
            (isFree_eq_false hfits hc hanyt)
          simp [Spot.stops, ht, hu, hany, hend, bne, hline]

/-- Inside delimiters a link may stand on a line of its own, and elsewhere a line break in front of
it is kept. -/
theorem link?_eq (h : e.Abreast true s w) (hfits : c.Fits e.frames) (p : Nat) :
    w.link? c p = s.link? c p := by
  obtain ⟨t, u, _, _, ht, hu, hmeets⟩ := h.texts.meets
  have hkind := kind_of_verbatim hmeets
  cases hlink : Link.ofKind? t.kind with
  | none => simp [Spot.link?, ht, hu, ← hkind, hlink]
  | some k =>
      cases hc : c.delimited with
      | true => simp [Spot.link?, ht, hu, ← hkind, hc]
      | false =>
          have hword : ∀ k, t.kind = .keyword k → k ∉ c.closers := fun k hk => by
            simp [hk, Link.ofKind?] at hlink
          have hend : t.isEnd = false := Bool.eq_false_iff.mpr fun hend => by
            rw [beq_iff_eq.mp hend] at hlink
            cases hlink
          have hline := h.keeps rfl t (by simp [ht]) u (by simp [hu]) hend
            (isFree_eq_false hfits hc (Token.isAny_eq_false hword))
          simp [Spot.link?, ht, hu, ← hkind, hc, hline]

/-- Outside of delimiters a parenthesis stands on the line in both texts or in neither. -/
theorem parenthesis_eq (h : e.Abreast true s w) (hfits : c.Fits e.frames)
    (hc : c.delimited = false) :
    w.next (fun t => t.isPunctuation .openParen && t.line == w.line) =
      s.next fun t => t.isPunctuation .openParen && t.line == s.line := by
  obtain ⟨t, u, _, _, ht, hu, hmeets⟩ := h.texts.meets
  have hkind := kind_of_verbatim hmeets
  cases hparen : t.isPunctuation .openParen with
  | false =>
      have hparen' : u.isPunctuation .openParen = false := by
        rwa [Token.isPunctuation, ← hkind]
      simp [Spot.next, ht, hu, hparen, hparen']
  | true =>
      have hpunct : t.kind = .punctuation .openParen := by
        simpa [Token.isPunctuation] using hparen
      have hline := h.keeps rfl t (by simp [ht]) u (by simp [hu])
        (Token.isEnd_of_punctuation hparen)
        (isFree_eq_false hfits hc (Token.isAny_eq_false (by simp [hpunct])))
      have hparen' : u.isPunctuation .openParen = true := by
        rwa [Token.isPunctuation, ← hkind]
      simp [Spot.next, ht, hu, hparen, hparen', hline]

/-- Behind `Next` a name stands on the line in both texts or in neither. -/
theorem counter_eq (h : e.Abreast true s w) (he : e.behindNext = true) :
    w.next (fun t => t.kind == .identifier && t.line == w.line) =
      s.next fun t => t.kind == .identifier && t.line == s.line := by
  obtain ⟨t, u, _, _, ht, hu, hmeets⟩ := h.texts.meets
  have hkind := kind_of_verbatim hmeets
  by_cases hname : t.kind = .identifier
  · have hline := h.keeps rfl t (by simp [ht]) u (by simp [hu])
      (Token.isEnd_of_kind hname rfl) (isFree_name he hname)
    simp [Spot.next, ht, hu, ← hkind, hline]
  · have hnot : (t.kind == .identifier) = false := by simpa using hname
    simp [Spot.next, ht, hu, ← hkind, hnot]

/-! #### One word -/

/-- Behind one word, which is not the first of a body. -/
theorem taken (h : (Enclosure.mk fs bs next).Abreast kept ⟨l, t :: ts⟩ w) (ht : t.isEnd = false)
    (hbs : Ahead bs ts) :
    ∃ l' u us, w = ⟨l', u :: us⟩ ∧ verbatim.token t u ∧
      (Enclosure.mk (Frame.past t fs) bs (t.isKeyword .kwNext)).Abreast true ⟨t.endLine, ts⟩
        ⟨u.endLine, us⟩ := by
  obtain ⟨l', us⟩ := w
  cases h.texts with
  | ended hend => exact absurd hend.2.2 (Bool.eq_false_iff.mp ht)
  | step htoken hmem hkeeps htexts =>
      have hentered : (Enclosure.mk fs bs next).entered t = ⟨fs, bs, next⟩ :=
        entered_eq hbs hmem
      rw [Enclosure.past, hentered] at hkeeps htexts
      exact ⟨l', _, _, rfl, htoken, htexts, fun _ => hkeeps⟩

theorem neutral (h : (Enclosure.mk fs bs next).Abreast kept ⟨l, t :: ts⟩ w) (hfits : c.Fits fs)
    (ht : t.kind.isNeutral = true) (hbs : Ahead bs ts) :
    ∃ l' u us, w = ⟨l', u :: us⟩ ∧ verbatim.token t u ∧
      (Enclosure.mk fs bs (t.isKeyword .kwNext)).Abreast true ⟨t.endLine, ts⟩
        ⟨u.endLine, us⟩ := by
  have := h.taken (Token.isEnd_of_neutral ht) hbs
  rwa [Frame.past_neutral hfits ht] at this

theorem neutrals {n : Token} (h : (Enclosure.mk fs bs next).Abreast kept ⟨l, t :: n :: ts⟩ w)
    (hfits : c.Fits fs) (ht : t.kind.isNeutral = true) (hn : n.kind.isNeutral = true)
    (hbs : Ahead bs ts) :
    ∃ l' u v us, w = ⟨l', u :: v :: us⟩ ∧ verbatim.token t u ∧ verbatim.token n v ∧
      (Enclosure.mk fs bs (n.isKeyword .kwNext)).Abreast true ⟨n.endLine, ts⟩
        ⟨v.endLine, us⟩ := by
  obtain ⟨l', u, _, rfl, htu, hv⟩ := h.neutral hfits ht hbs.past
  obtain ⟨_, v, us, hcons, hnv, hv'⟩ := hv.neutral hfits hn hbs
  obtain ⟨-, rfl⟩ := Spot.mk.inj hcons
  exact ⟨l', u, v, us, rfl, htu, hnv, hv'⟩

theorem opening {p : Punctuation} (h : (Enclosure.mk fs bs next).Abreast kept ⟨l, t :: ts⟩ w)
    (ht : t.isPunctuation p = true) (hbs : Ahead bs ts) (hp : p.opens = true) :
    ∃ l' u us, w = ⟨l', u :: us⟩ ∧ verbatim.token t u ∧
      (Enclosure.mk (.bracket :: fs) bs (t.isKeyword .kwNext)).Abreast true ⟨t.endLine, ts⟩
        ⟨u.endLine, us⟩ := by
  have := h.taken (Token.isEnd_of_punctuation ht) hbs
  rwa [Frame.past_opening ht hp] at this

theorem closing {p : Punctuation}
    (h : (Enclosure.mk (.bracket :: fs) bs next).Abreast kept ⟨l, t :: ts⟩ w)
    (ht : t.isPunctuation p = true) (hbs : Ahead bs ts) (hp : p.closes = true) :
    ∃ l' u us, w = ⟨l', u :: us⟩ ∧ verbatim.token t u ∧
      (Enclosure.mk fs bs (t.isKeyword .kwNext)).Abreast true ⟨t.endLine, ts⟩
        ⟨u.endLine, us⟩ := by
  have := h.taken (Token.isEnd_of_punctuation ht) hbs
  rwa [Frame.past_closing ht hp] at this

theorem word {k : Keyword} {closers : List Keyword}
    (h : (Enclosure.mk (.body closers :: fs) bs next).Abreast kept ⟨l, t :: ts⟩ w)
    (ht : t.isKeyword k = true) (hbs : Ahead bs ts) (hk : k ∈ closers) :
    ∃ l' u us, w = ⟨l', u :: us⟩ ∧ verbatim.token t u ∧
      (Enclosure.mk fs bs (t.isKeyword .kwNext)).Abreast true ⟨t.endLine, ts⟩
        ⟨u.endLine, us⟩ := by
  have := h.taken (Token.isEnd_of_keyword ht) hbs
  rwa [Frame.past_word ht hk] at this

/-- In the body that begins at the next word. -/
theorem intoBody {closers : List Keyword}
    (h : (Enclosure.mk fs (⟨t, closers⟩ :: bs) next).Abreast kept ⟨l, t :: ts⟩ w)
    (hbs : Ahead bs ts) :
    (Enclosure.mk (.body closers :: fs) bs next).Abreast false ⟨l, t :: ts⟩ w := by
  obtain ⟨l', us⟩ := w
  refine ⟨?_, nofun⟩
  cases h.texts with
  | ended hend => exact .ended hend
  | step htoken hmem hkeeps htexts =>
      have hentered : (Enclosure.mk (.body closers :: fs) bs next).entered t =
          ⟨.body closers :: fs, bs, next⟩ := entered_eq hbs hmem
      have hpast : (Enclosure.mk fs (⟨t, closers⟩ :: bs) next).past t =
          (Enclosure.mk (.body closers :: fs) bs next).past t := by
        rw [Enclosure.past, Enclosure.past, hentered]
        simp [entered]
      rw [hpast] at hkeeps htexts
      exact .step htoken hmem hkeeps htexts

end Abreast

end Enclosure

end Clipper
