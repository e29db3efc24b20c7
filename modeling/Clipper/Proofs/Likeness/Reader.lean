import Clipper.Proofs.Likeness.Correspondence
import Clipper.Proofs.Reading.Lawful

/-!
Readers that have come equally far. What is asked of the token in front is answered alike
by both, also where the first text ends: there neither goes on. Taking a token, reporting a
fault and skipping to the next line keep them so.
-/

namespace Clipper

/-! ### Skipping -/

namespace Grammar

theorem skipWhile_rounds {more : Reader → Bool} (hmore : ∀ r, more r = true → r.atEnd = false)
    {rounds rounds' : List Token} {r : Reader} (hr : r.Sound)
    (hlt : r.pending.length < rounds.length) (hlt' : r.pending.length < rounds'.length) :
    skipWhile more rounds r = skipWhile more rounds' r := by
  induction rounds generalizing rounds' r with
  | nil => simp at hlt
  | cons t rounds ih =>
      cases rounds' with
      | nil => simp at hlt'
      | cons t' rounds' =>
          rw [skipWhile, skipWhile]
          split
          · rename_i hm
            have hshort := Reader.length_advanced_lt hr (hmore r hm)
            simp only [List.length_cons] at hlt hlt'
            exact ih (Reader.sound_advanced hr) (by omega) (by omega)
          · rfl

end Grammar

namespace Reader

variable {r s : Reader} {c : Context}

theorem lineSkipped_of_stops (h : r.stops c = true) : r.lineSkipped c = r := by
  simp [lineSkipped, rounds, Grammar.skipWhile, h]

theorem atEnd_of_not_stops (h : r.stops c = false) : r.atEnd = false := by
  simp_all [stops]

theorem lineSkipped_of_not_stops (hr : r.Sound) (h : r.stops c = false) :
    r.lineSkipped c = r.advanced.lineSkipped c := by
  have hmore : ∀ r : Reader, (!r.stops c) = true → r.atEnd = false := fun r hm =>
    atEnd_of_not_stops (c := c) (by simpa using hm)
  have hshort := length_advanced_lt hr (atEnd_of_not_stops h)
  have hlt := Grammar.length_pending_lt_rounds r
  rw [lineSkipped, rounds, Grammar.skipWhile, if_pos (by simpa using h)]
  refine Grammar.skipWhile_rounds hmore (sound_advanced hr) ?_
    (Grammar.length_pending_lt_rounds _)
  simp only [rounds, List.length_cons] at hlt ⊢
  omega

/-- Behind a reader the token at its front does not come again. -/
theorem start_eq_iff (hordered : r.pending.Pairwise fun t u => t.span.start < u.span.start)
    (hr : r.Sound) (hend : r.atEnd = false) (ho : r.Onward s) :
    (s.current.span.start == r.current.span.start && !s.current.isEnd) =
      decide (s.pending.length = r.pending.length) := by
  have hcons := pending_eq_cons hr hend
  cases hs : s.current.isEnd with
  | true =>
      have hnil : s.pending = [] := pending_of_atEnd ho.sound hs
      simp [hcons, hnil]
  | false =>
      have hcons' := pending_eq_cons ho.sound hs
      by_cases hlen : s.pending.length = r.pending.length
      · have heq := ho.pending.eq_of_length hlen
        rw [hcons, hcons'] at heq
        simp [(List.cons.inj heq).1, hlen]
      · have hsuffix : s.pending <:+ r.advanced.pending := by
          have h := ho.pending
          rw [hcons, List.suffix_cons_iff] at h
          exact h.resolve_left fun heq => hlen (by rw [heq, hcons])
        have hmem : s.current ∈ r.advanced.pending :=
          hsuffix.subset (by rw [hcons']; exact List.mem_cons_self)
        rw [hcons, List.pairwise_cons] at hordered
        have hlt := hordered.1 _ hmem
        simp only [Bool.not_false, Bool.and_true, hlen, decide_false, beq_eq_false_iff_ne]
        omega

@[simp] theorem found_advanced (r : Reader) : r.advanced.found = r.found := by
  simp [found, advanced, shift, Fault.illegal?]

theorem found_reported {f : Fault} (hf : f.illegal? = none) :
    (r.reported f).found = if r.muted then r.found else r.found ++ [f] := by
  unfold reported found
  split <;> simp [hf]

end Reader

namespace Correspondence

variable {K : Correspondence} {t u : Token} {r r' s s' : Reader} {c : Context}
  {ks : List Keyword}

theorem isKeyword_of_isAny (h : t.isAny ks = true) : ∃ k ∈ ks, t.kind = .keyword k := by
  unfold Token.isAny TokenKind.keyword? at h
  split at h
  · exact ⟨_, by simpa using h, by assumption⟩
  · simp at h

/-- What cannot tell a declaring word from the end of the text is answered alike. -/
theorem Meets.ask {α : Type} {p : TokenKind → α} (h : K.Meets t u)
    (hp : ∀ k ∈ declaring, p (.keyword k) = p .endOfInput) : p t.kind = p u.kind := by
  rcases h with h | h
  · rw [K.kind_eq h]
  · have ht : t.kind = .endOfInput := by simpa [Token.isEnd] using K.isEnd_ending h
    rcases K.ending_declares h with hu | hu
    · rw [ht, show u.kind = .endOfInput by simpa [Token.isEnd] using hu]
    · obtain ⟨k, hk, hu⟩ := isKeyword_of_isAny hu
      rw [ht, hu, hp k hk]

theorem Names.text_eq {n n' : Name} (h : K.Names n n') : n.text = n'.text := by
  cases h with
  | written ht hk => exact K.literal_eq ht (by rw [hk]; rfl)
  | missing _ => rfl

namespace Spots

theorem length_eq {l l' : Nat} {ts us : List Token} (h : K.Spots ⟨l, ts⟩ ⟨l', us⟩) :
    us.length = ts.length + K.beyond.length := by
  generalize hp : (⟨l, ts⟩ : Spot) = p at h
  generalize hq : (⟨l', us⟩ : Spot) = q at h
  induction h generalizing l l' ts us with
  | ended _ _ hlen =>
      cases hp
      cases hq
      simp [hlen, Nat.add_comm]
  | step _ _ _ _ ih =>
      cases hp
      cases hq
      have := ih rfl rfl
      simp only [List.length_cons]
      omega

end Spots

/-- Both texts go on. -/
structure Steps (K : Correspondence) (r r' : Reader) : Prop where
  atEnd' : r'.atEnd = false
  token : K.token r.current r'.current
  sameLine : r.sameLine = r'.sameLine
  function : r.current.isKeyword .kwStatic = true →
    r.next.isKeyword .kwFunction = r'.next.isKeyword .kwFunction
  spots : K.Spots r.advanced.spot r'.advanced.spot

/-- The first text is over. -/
structure Ends (K : Correspondence) (r r' : Reader) : Prop where
  ending : K.ending r.current r'.current
  apart : r'.atEnd = true ∨ r'.sameLine = false
  behind : r'.spot.rest = r'.current :: K.beyond

namespace Readers

theorem ends (h : K.Readers r r') (hend : r.atEnd = true) : K.Ends r r' := by
  have hspot : r.spot = ⟨r.line, [r.current]⟩ := by
    rw [Reader.spot, Reader.pending_of_atEnd h.sound hend, (h.sound.current_end hend).1]
    rfl
  have hspots := h.spots
  have hhead := Reader.head?_spot h.sound'
  rw [hspot] at hspots
  generalize hs : r'.spot = s at hspots hhead
  have hline : s.line = r'.line := by rw [← hs]; rfl
  cases hspots with
  | ended he ha hbehind =>
      obtain rfl := Option.some.inj hhead
      refine ⟨he, ha.imp id fun hne => ?_, by rw [hs, hbehind]⟩
      have : _ = r'.line := hline
      simpa [Reader.sameLine, ← this] using hne
  | step htoken _ _ _ =>
      have hopen := K.isEnd_token htoken
      simp [Reader.atEnd, hopen] at hend

theorem steps (h : K.Readers r r') (hopen : r.atEnd = false) : K.Steps r r' := by
  have hspots := h.spots
  have hhead := Reader.head?_spot h.sound'
  rw [Reader.spot_eq h.sound hopen] at hspots
  generalize hs : r'.spot = s at hspots hhead
  generalize hts : r.advanced.spot.rest = ts at hspots
  cases hspots with
  | ended he _ _ =>
      have hend := K.isEnd_ending he
      simp [Reader.atEnd, hend] at hopen
  | @step _ l' _ u _ us htoken hsame hfunction hrest =>
      obtain rfl := Option.some.inj hhead
      have hopen' : r'.atEnd = false := by
        have := K.isEnd_token htoken
        rwa [Token.isEnd, K.kind_eq htoken] at this
      rw [Reader.spot_eq h.sound' hopen'] at hs
      obtain ⟨rfl, hus⟩ := Spot.mk.injEq .. ▸ hs
      obtain rfl := (List.cons.inj hus).2
      subst hts
      refine ⟨hopen', htoken, hsame, fun hstatic => ?_, hrest⟩
      have := hfunction hstatic
      rwa [Reader.head?_spot (Reader.sound_advanced h.sound),
        Reader.head?_spot (Reader.sound_advanced h.sound')] at this

theorem meets (h : K.Readers r r') : K.Meets r.current r'.current := by
  cases hend : r.atEnd with
  | true => exact .inr (h.ends hend).ending
  | false => exact .inl (h.steps hend).token

/-! ### What is asked of a reader -/

theorem ask {α : Type} {p : TokenKind → α} (h : K.Readers r r')
    (hp : ∀ k ∈ declaring, p (.keyword k) = p .endOfInput) : p r.current.kind = p r'.current.kind :=
  h.meets.ask hp

theorem isKeyword (h : K.Readers r r') {k : Keyword} (hk : k ∉ declaring) :
    r.current.isKeyword k = r'.current.isKeyword k :=
  h.ask (p := (· == .keyword k)) fun k' hk' => by
    have hne : k' ≠ k := fun heq => hk (heq ▸ hk')
    simp [hne]

theorem isPunctuation (h : K.Readers r r') (p : Punctuation) :
    r.current.isPunctuation p = r'.current.isPunctuation p :=
  h.ask (p := (· == .punctuation p)) (by simp)

theorem isOperator (h : K.Readers r r') (o : Operator) :
    r.current.isOperator o = r'.current.isOperator o :=
  h.ask (p := (· == .operator o)) (by simp)

theorem identifier_iff (h : K.Readers r r') :
    r.current.kind = .identifier ↔ r'.current.kind = .identifier := by
  have hsame := h.ask (p := (· == .identifier)) (by simp)
  simpa using Bool.eq_iff_iff.mp hsame

/-- A kind of token that has to stand on the line. -/
theorem onLine (h : K.Readers r r') {p : TokenKind → Bool}
    (hp : ∀ k ∈ declaring, p (.keyword k) = p .endOfInput) (hend : p .endOfInput = false) :
    (p r.current.kind && r.sameLine) = (p r'.current.kind && r'.sameLine) := by
  rw [← h.ask hp]
  cases hr : r.atEnd with
  | true =>
      have : r.current.kind = .endOfInput := by simpa [Reader.atEnd, Token.isEnd] using hr
      simp [this, hend]
  | false => rw [(h.steps hr).sameLine]

theorem atAny (h : K.Readers r r') (hopen : r.atEnd = false) (ks : List Keyword) :
    r.atAny ks = r'.atAny ks := by
  rw [Reader.atAny, Reader.atAny, K.kind_eq (h.steps hopen).token]

theorem blockEnds (h : K.Readers r r') (hg : K.guards ks ∨ r.atEnd = false) :
    (r.atEnd || r.atAny ks) = (r'.atEnd || r'.atAny ks) := by
  cases hr : r.atEnd with
  | true =>
      have hclose := K.guards_close (h.ends hr).ending (hg.resolve_right (by simp [hr]))
      simpa [Reader.atEnd, Reader.atAny, Token.isAny] using hclose
  | false => rw [h.atAny hr, (h.steps hr).atEnd']

theorem stops (h : K.Readers r r') (c : Context) : r.stops c = r'.stops c := by
  cases hr : r.atEnd with
  | true => rcases (h.ends hr).apart with ha | ha <;> simp [Reader.stops, hr, ha]
  | false =>
      have hs := h.steps hr
      simp [Reader.stops, hr, hs.atEnd', hs.sameLine, h.atAny hr]

theorem moreMembers (h : K.Readers r r') (hg : K.guards c.closers ∨ r.atEnd = false) :
    Grammar.moreMembers c r = Grammar.moreMembers c r' := by
  have hends := h.blockEnds hg
  have hmember : r.atAny [.kwData, .kwMethod] = r'.atAny [.kwData, .kwMethod] :=
    h.ask (p := fun k => k.keyword?.any ([.kwData, .kwMethod] : List Keyword).contains) (by decide)
  rw [Grammar.moreMembers, Grammar.moreMembers, hmember, ← Bool.not_or, ← Bool.not_or, hends]

theorem link? (h : K.Readers r r') (c : Context) (p : Nat) :
    Grammar.link? c p r = Grammar.link? c p r' := by
  have hkind : Grammar.Link.ofKind? r.current.kind = Grammar.Link.ofKind? r'.current.kind :=
    h.ask (by decide)
  cases hr : r.atEnd with
  | true =>
      have hend : r.current.kind = .endOfInput := by simpa [Reader.atEnd, Token.isEnd] using hr
      have hnone : Grammar.Link.ofKind? r.current.kind = none := by rw [hend]; rfl
      rw [Grammar.link?, Grammar.link?, ← hkind, hnone]
  | false => rw [Grammar.link?, Grammar.link?, ← hkind, (h.steps hr).sameLine]

theorem opensFunction (h : K.Readers r r') (hopen : r.atEnd = false) :
    Grammar.opensFunction r = Grammar.opensFunction r' := by
  have hs := h.steps hopen
  have hkind := K.kind_eq hs.token
  have hstatic := hs.function
  simp only [Grammar.opensFunction, Token.isKeyword] at hstatic ⊢
  rw [← hkind]
  cases h' : r.current.kind == .keyword .kwStatic with
  | true => rw [hstatic h']
  | false => rfl

/-! ### What is done to a reader -/

theorem advanced (h : K.Readers r r') (hopen : r.atEnd = false) :
    K.Readers r.advanced r'.advanced where
  sound := Reader.sound_advanced h.sound
  sound' := Reader.sound_advanced h.sound'
  spots := (h.steps hopen).spots
  muted := h.muted
  found := by simpa using h.found
  ordered := h.ordered.sublist (Reader.onward_advanced h.sound).pending.sublist
  ordered' := h.ordered'.sublist (Reader.onward_advanced h.sound').pending.sublist

theorem reported {f f' : Fault} (h : K.Readers r r') (hf : K.Faults f f') :
    K.Readers (r.reported f) (r'.reported f') := by
  have hlegal : f.illegal? = none := by cases hf <;> rfl
  have hlegal' : f'.illegal? = none := by cases hf <;> rfl
  have hspot : (r.reported f).spot = r.spot := by simp [Reader.spot]
  have hspot' : (r'.reported f').spot = r'.spot := by simp [Reader.spot]
  refine ⟨(Reader.onward_reported h.sound f hlegal).sound,
    (Reader.onward_reported h.sound' f' hlegal').sound, ?_, by simpa using h.muted, ?_, ?_, ?_⟩
  · rw [hspot, hspot']
    exact h.spots
  · rw [Reader.found_reported hlegal, Reader.found_reported hlegal', ← h.muted]
    split
    · exact h.found
    · obtain ⟨xs, xs', hxs, hxs', halike⟩ := h.found
      refine ⟨xs ++ [f], xs' ++ [f'], ?_, ?_, List.rel_append halike (.cons hf .nil)⟩
      · rw [hxs, List.append_assoc]
      · rw [hxs', List.append_assoc]
  · simpa using h.ordered
  · simpa using h.ordered'

theorem silenced (h : K.Readers r r') : K.Readers r.silenced r'.silenced := by
  have hr := h.reported (.tooDeep h.meets)
  exact { hr with
    sound := (Reader.onward_silenced h.sound).sound
    sound' := (Reader.onward_silenced h.sound').sound
    muted := rfl }

theorem settled (h : K.Readers r r') (c : Context) : K.Readers (r.settled c) (r'.settled c) := by
  have hs := (Reader.onward_settled (c := c) h.sound).sound
  have hs' := (Reader.onward_settled (c := c) h.sound').sound
  unfold Reader.settled at *
  split
  · rename_i ho
    rw [if_pos ho] at hs hs'
    exact { h with sound := hs, sound' := hs', muted := rfl }
  · exact h

theorem lineSkipped (h : K.Readers r r') (c : Context) :
    K.Readers (r.lineSkipped c) (r'.lineSkipped c) := by
  generalize hn : r.pending.length = n
  induction n using Nat.strongRecOn generalizing r r' with
  | ind n ih =>
      cases hs : r.stops c with
      | true =>
          rw [Reader.lineSkipped_of_stops hs, Reader.lineSkipped_of_stops (h.stops c ▸ hs)]
          exact h
      | false =>
          have hopen := Reader.atEnd_of_not_stops hs
          rw [Reader.lineSkipped_of_not_stops h.sound hs,
            Reader.lineSkipped_of_not_stops h.sound' (h.stops c ▸ hs)]
          exact ih _ (hn ▸ Reader.length_advanced_lt h.sound hopen) (h.advanced hopen) rfl

theorem recovered (h : K.Readers r r') (hopen : r.atEnd = false) (ho : r.Onward s)
    (ho' : r'.Onward s') (hs : K.Readers s s') (c : Context) :
    K.Readers (s.recovered c r.current.span.start) (s'.recovered c r'.current.span.start) := by
  have hstart := Reader.start_eq_iff h.ordered h.sound hopen ho
  have hstart' := Reader.start_eq_iff h.ordered' h.sound' (h.steps hopen).atEnd' ho'
  -- Either both or neither have taken a token since.
  have hlen : (s.pending.length = r.pending.length) = (s'.pending.length = r'.pending.length) := by
    have hr := h.spots.length_eq
    have hs := hs.spots.length_eq
    simp only [List.length_append, List.length_cons, List.length_nil] at hr hs
    rw [eq_iff_iff]
    omega
  have hsame : (s.current.span.start == r.current.span.start && !s.current.isEnd) =
      (s'.current.span.start == r'.current.span.start && !s'.current.isEnd) := by
    rw [hstart, hstart', decide_eq_decide, hlen]
  rw [Reader.recovered, Reader.recovered, ← hsame]
  split
  · rename_i htest
    have hend : s.atEnd = false := by simp_all [Reader.atEnd]
    exact (hs.advanced hend).lineSkipped c
  · exact hs.lineSkipped c

end Readers

end Correspondence

end Clipper
