import Clipper.Proofs.Grammar.Completeness.Statement
import Clipper.Proofs.Likeness.Reader
import Clipper.Proofs.Position.Located

/-!
A line of a text whose brackets are closed on it. A reader that has come to such a line may be
on it with some of its brackets open; whatever it does next, it cannot leave the line before
it has closed them or given them up. What it reports on the way is counted as well: nothing
while it is silent, and an expression that is too deep once.
-/

namespace Clipper

/-! ### Tokens -/

/-- What a token does to the brackets of its line. -/
inductive Bearing
  | word
  /-- Something has to stand behind it. -/
  | sign
  | opening
  | closing
  deriving DecidableEq, Repr

def Punctuation.bearing : Punctuation → Bearing
  | comma | colon | colonColon => .sign
  | openParen | openBracket | openBrace => .opening
  | closeParen | closeBracket | closeBrace => .closing

/-- Words of the language have no bearing, nor have illegal characters and the end of a text. -/
def Token.bearing? (t : Token) : Option Bearing :=
  match t.kind with
  | .identifier | .integer | .float | .string | .date => some .word
  | .operator _ => some .sign
  | .punctuation p => some p.bearing
  | _ => none

/-- The tokens close so many brackets that stand open in front of them, and those that they
open themselves. None of them is a word of the language, and the last one is no sign. -/
def balances (depth : Nat) : List Token → Bool
  | [] => depth == 0
  | t :: ts =>
      match t.bearing? with
      | some .word => balances depth ts
      | some .sign => !ts.isEmpty && balances depth ts
      | some .opening => balances (depth + 1) ts
      | some .closing => 0 < depth && balances (depth - 1) ts
      | none => false

/-- How many more brackets are open behind the token than in front of it. -/
def Bearing.behind (depth : Nat) : Bearing → Nat
  | word | sign => depth
  | opening => depth + 1
  | closing => depth - 1

theorem balances_nil {d : Nat} : balances d [] = true ↔ d = 0 := beq_iff_eq

theorem balances_cons {d : Nat} {t : Token} {ts : List Token} (h : balances d (t :: ts) = true) :
    ∃ bearing, t.bearing? = some bearing ∧ balances (bearing.behind d) ts = true ∧
      (bearing = .sign → ts ≠ []) ∧ (bearing = .closing → 0 < d) := by
  rw [balances] at h
  cases hbearing : t.bearing? with
  | none => simp [hbearing] at h
  | some bearing => cases bearing <;> simp_all [Bearing.behind]

theorem Token.bearing?_punctuation {t : Token} {p : Punctuation} (h : t.isPunctuation p = true) :
    t.bearing? = some p.bearing := by
  have hk : t.kind = .punctuation p := by simpa [isPunctuation] using h
  rw [bearing?, hk]

/-- The bearing of the token with which an operand begins. -/
def Grammar.Starter.bearing? : Starter → Option Bearing
  | .name | .integer | .float | .string | .date => some .word
  | .unary _ | .ownMember => some .sign
  | .group | .array => some .opening
  | _ => none

theorem Grammar.Starter.bearing?_eq {st : Starter} {t : Token} {bearing : Bearing}
    (h : Starter.ofKind? t.kind = some st) (ht : t.bearing? = some bearing) :
    st.bearing? = some bearing := by
  unfold Token.bearing? at ht
  generalize t.kind = k at h ht
  cases k with
  | operator o => cases o <;> cases h <;> cases ht <;> rfl
  | punctuation p => cases p <;> cases h <;> cases ht <;> rfl
  | keyword k => cases ht
  | _ => cases h <;> cases ht <;> rfl

/-- The bearing of the token of a link. -/
def Grammar.Link.bearing : Link → Bearing
  | .binary _ | .assign | .member => .sign
  | .call | .index => .opening

theorem Grammar.Link.bearing?_eq {t : Token} {l : Link} (h : Link.ofKind? t.kind = some l) :
    t.bearing? = some l.bearing := by
  unfold Token.bearing?
  generalize t.kind = k at h
  cases k with
  | operator o => cases o <;> cases h <;> rfl
  | punctuation p => cases p <;> cases h <;> rfl
  | _ => cases h

def Fault.isTooDeep : Fault → Bool
  | tooDeep _ => true
  | _ => false

/-! ### Lines -/

/-- The tokens of a line and what stands below it. -/
structure Row where
  tokens : List Token
  next : Token
  others : List Token
  line : Nat
  nonempty : tokens ≠ []
  onLine : ∀ t ∈ tokens, t.line = line ∧ t.endLine = line
  apart : next.isEnd = true ∨ next.line ≠ line ∧ ∀ t ∈ tokens, t.span.start ≠ next.span.start

namespace Row

variable {R : Row} {c : Context} {d : Nat} {r r' r'' : Reader} {us : List Token}

/-- The reader stands on the line in front of these tokens, with so many brackets open at
least. -/
structure Holds (R : Row) (d : Nat) (us : List Token) (r : Reader) : Prop where
  sound : r.Sound
  legal : ∀ t ∈ r.ahead, t.isIllegal = false
  rest : r.spot.rest = us ++ R.next :: R.others
  tail : us <:+ R.tokens
  begun : r.line = R.line ∨ us = R.tokens
  opened : ∃ k, d ≤ k ∧ balances k us = true

/-- The reader stands on the line or behind it. -/
def Within (R : Row) (d : Nat) (r : Reader) : Prop := ∃ us, R.Holds d us r

/-- The reader stands on the line. -/
def Before (R : Row) (d : Nat) (r : Reader) : Prop := ∃ us, R.Holds d (r.current :: us) r

/-- The reader stands behind the line. -/
def Behind (R : Row) (r : Reader) : Prop := R.Holds 0 [] r

theorem Before.within (h : R.Before d r) : R.Within d r := let ⟨_, h⟩ := h; ⟨_, h⟩

theorem Holds.mono {e : Nat} (h : R.Holds d us r) (hle : e ≤ d) : R.Holds e us r :=
  { h with opened := let ⟨k, hk, hus⟩ := h.opened; ⟨k, Nat.le_trans hle hk, hus⟩ }

theorem Within.mono {e : Nat} (h : R.Within d r) (hle : e ≤ d) : R.Within e r :=
  let ⟨us, h⟩ := h; ⟨us, h.mono hle⟩

theorem Holds.current {t : Token} (h : R.Holds d (t :: us) r) : r.current = t := by
  have hhead := Reader.head?_spot h.sound
  rw [h.rest] at hhead
  exact (Option.some.inj hhead).symm

/-- The reader stands on the line, or no bracket of it is open. -/
theorem Within.cases (h : R.Within d r) : R.Before d r ∨ d = 0 ∧ R.Behind r := by
  obtain ⟨us, h⟩ := h
  cases us with
  | cons t us => exact .inl ⟨us, h.current ▸ h⟩
  | nil =>
      obtain ⟨k, hk, hnil⟩ := h.opened
      obtain rfl := balances_nil.mp hnil
      obtain rfl := Nat.le_zero.mp hk
      exact .inr ⟨rfl, h⟩

/-- With a bracket open the reader stands on the line. -/
theorem Within.before (h : R.Within (d + 1) r) : R.Before (d + 1) r :=
  h.cases.resolve_right fun h => Nat.succ_ne_zero d h.1

theorem Behind.within (h : R.Behind r) : R.Within 0 r := ⟨[], h⟩

theorem Behind.line (h : R.Behind r) : r.line = R.line :=
  h.begun.resolve_right fun hnil => R.nonempty hnil.symm

theorem Behind.current (h : R.Behind r) : r.current = R.next := by
  have hhead := Reader.head?_spot h.sound
  rw [h.rest] at hhead
  exact (Option.some.inj hhead).symm

theorem Behind.apart (h : R.Behind r) : r.atEnd = true ∨ r.sameLine = false := by
  refine R.apart.imp (fun hend => ?_) fun hline => ?_
  · rwa [Reader.atEnd, h.current]
  · simpa [Reader.sameLine, h.current, h.line] using hline.1

theorem Behind.stops (h : R.Behind r) : r.stops c = true := by
  rcases h.apart with h | h <;> simp [Reader.stops, h]

theorem Behind.link? {p : Nat} (h : R.Behind r) (hc : c.delimited = false) :
    Grammar.link? c p r = none := by
  rcases h.apart with hend | hline
  · have hk : r.current.kind = .endOfInput := by simpa [Reader.atEnd, Token.isEnd] using hend
    simp [Grammar.link?, hk, Grammar.Link.ofKind?]
  · cases hk : Grammar.Link.ofKind? r.current.kind <;> simp [Grammar.link?, hk, hc, hline]

namespace Before

theorem sound (h : R.Before d r) : r.Sound := let ⟨_, h⟩ := h; h.sound

theorem mem (h : R.Before d r) : r.current ∈ R.tokens :=
  let ⟨_, h⟩ := h
  h.tail.subset List.mem_cons_self

theorem bearing (h : R.Before d r) : ∃ bearing, r.current.bearing? = some bearing := by
  obtain ⟨us, h⟩ := h
  obtain ⟨k, -, hus⟩ := h.opened
  obtain ⟨bearing, hbearing, -⟩ := balances_cons hus
  exact ⟨bearing, hbearing⟩

theorem not_keyword (h : R.Before d r) (k : Keyword) : r.current.kind ≠ .keyword k := by
  obtain ⟨bearing, hbearing⟩ := h.bearing
  intro hk
  simp [Token.bearing?, hk] at hbearing

theorem atEnd (h : R.Before d r) : r.atEnd = false := by
  obtain ⟨bearing, hbearing⟩ := h.bearing
  rw [Reader.atEnd, Token.isEnd]
  cases hk : r.current.kind <;> simp_all [Token.bearing?]

/-- Only at the beginning of the line may a statement end in front of it. -/
theorem not_stops (h : R.Before d r) (hline : r.line = R.line) : r.stops c = false := by
  have hsame : r.sameLine = true := by
    simpa [Reader.sameLine, hline] using (R.onLine _ h.mem).1
  have hword : r.atAny c.closers = false := by
    cases hk : r.current.kind <;> simp_all [Reader.atAny, TokenKind.keyword?, h.not_keyword]
  simp [Reader.stops, h.atEnd, hsame, hword]

end Before

/-! ### Steps -/

/-- Taking a token of the line. -/
theorem Holds.advanced {t : Token} (h : R.Holds d (t :: us) r) :
    ∃ bearing, t.bearing? = some bearing ∧ R.Holds (bearing.behind d) us r.advanced ∧
      (bearing = .sign → us ≠ []) := by
  have hcurrent := h.current
  have hbefore : R.Before d r := ⟨us, hcurrent ▸ h⟩
  obtain ⟨k, hk, hus⟩ := h.opened
  obtain ⟨bearing, hbearing, hbehind, hsign, -⟩ := balances_cons hus
  have hspot := congrArg Spot.rest (Reader.spot_eq h.sound hbefore.atEnd)
  rw [h.rest, List.cons_append, hcurrent] at hspot
  refine ⟨bearing, hbearing, ?_, hsign⟩
  exact
    { sound := Reader.sound_advanced h.sound
      legal := Reader.legal_advanced h.legal
      rest := (List.cons.inj hspot).2.symm
      tail := (List.suffix_cons t us).trans h.tail
      begun := .inl (R.onLine _ hbefore.mem).2
      opened :=
        ⟨bearing.behind k, by cases bearing <;> simp only [Bearing.behind] <;> omega, hbehind⟩ }

namespace Before

theorem advanced {bearing : Bearing} (h : R.Before d r)
    (hbearing : r.current.bearing? = some bearing) :
    R.Within (bearing.behind d) r.advanced := by
  obtain ⟨us, h⟩ := h
  obtain ⟨bearing', hbearing', h', -⟩ := h.advanced
  obtain rfl := Option.some.inj (hbearing.symm.trans hbearing')
  exact ⟨us, h'⟩

/-- Behind a sign the line goes on. -/
theorem advanced_sign (h : R.Before d r) (hbearing : r.current.bearing? = some .sign) :
    R.Before d r.advanced := by
  obtain ⟨us, h⟩ := h
  obtain ⟨bearing, hbearing', h', hsign⟩ := h.advanced
  obtain rfl := Option.some.inj (hbearing.symm.trans hbearing')
  cases us with
  | nil => exact absurd rfl (hsign rfl)
  | cons t us => exact ⟨us, h'.current ▸ h'⟩

end Before

/-- What has been reported between two readers: nothing in silence, and an expression that is
too deep only on falling silent. It is all about tokens of the line. -/
def Tally (R : Row) (r r' : Reader) : Prop :=
  ∃ fs, r'.faults.toList = r.faults.toList ++ fs ∧ (∀ f ∈ fs, f.marked ∈ R.tokens) ∧
    (r.muted = true → fs = []) ∧ r.muted.toNat + fs.countP Fault.isTooDeep = r'.muted.toNat

namespace Tally

theorem of_eq (hfaults : r'.faults = r.faults) (hmuted : r'.muted = r.muted) : R.Tally r r' :=
  ⟨[], by simp [hfaults], by simp, fun _ => rfl, by simp [hmuted]⟩

theorem trans (h : R.Tally r r') (h' : R.Tally r' r'') : R.Tally r r'' := by
  obtain ⟨fs, hfs, hline, hsilent, hcount⟩ := h
  obtain ⟨gs, hgs, hline', hsilent', hcount'⟩ := h'
  refine ⟨fs ++ gs, by rw [hgs, hfs, List.append_assoc], ?_, fun hm => ?_, ?_⟩
  · exact List.forall_mem_append.mpr ⟨hline, hline'⟩
  · have hm' : r'.muted = true := by
      rw [hm, hsilent hm] at hcount
      cases h : r'.muted <;> simp [h] at hcount ⊢
    rw [hsilent hm, hsilent' hm', List.append_nil]
  · rw [List.countP_append, ← Nat.add_assoc, hcount, hcount']

theorem reported {f : Fault} (hf : f.marked ∈ R.tokens) (hdeep : f.isTooDeep = false) :
    R.Tally r (r.reported f) := by
  unfold Reader.reported
  split
  · exact .of_eq rfl rfl
  · rename_i hm
    exact ⟨[f], by simp, by simpa using hf, fun h => absurd h hm, by simp [hdeep]⟩

theorem silenced (hr : r.current ∈ R.tokens) : R.Tally r r.silenced := by
  unfold Reader.silenced Reader.reported
  split
  · rename_i hm
    exact .of_eq rfl hm.symm
  · rename_i hm
    have hfalse : r.muted = false := by simpa using hm
    exact ⟨[.tooDeep r.current], by simp, by simpa [Fault.marked] using hr, fun h => absurd h hm,
      by simp [hfalse, Fault.isTooDeep]⟩

end Tally

/-- Between the two readers nothing has been taken or reported but on the line, and not more
brackets have been closed than so many of those open. -/
structure Keeps (R : Row) (d : Nat) (r r' : Reader) : Prop where
  within : R.Within d r'
  tally : R.Tally r r'
  line : r.line = R.line → r'.line = R.line

theorem Holds.reported {f : Fault} (h : R.Holds d us r) (hf : f.illegal? = none) :
    R.Holds d us (r.reported f) where
  sound := (Reader.onward_reported h.sound f hf).sound
  legal := by simpa using h.legal
  rest := by simpa [Reader.spot] using h.rest
  tail := h.tail
  begun := by simpa using h.begun
  opened := h.opened

theorem Holds.silenced (h : R.Holds d us r) : R.Holds d us r.silenced :=
  { h.reported (f := .tooDeep r.current) rfl with
    sound := (Reader.onward_silenced h.sound).sound }

theorem Before.reported {f : Fault} (h : R.Before d r) (hf : f.illegal? = none) :
    R.Before d (r.reported f) := by
  obtain ⟨us, h⟩ := h
  exact ⟨us, by simpa using h.reported hf⟩

theorem Before.line_advanced (h : R.Before d r) : r.advanced.line = R.line :=
  (R.onLine _ h.mem).2

namespace Keeps

theorem trans {e : Nat} (h : R.Keeps e r r') (h' : R.Keeps d r' r'') : R.Keeps d r r'' :=
  ⟨h'.within, h.tally.trans h'.tally, fun hline => h'.line (h.line hline)⟩

theorem mono {e : Nat} (h : R.Keeps d r r') (hle : e ≤ d) : R.Keeps e r r' :=
  ⟨h.within.mono hle, h.tally, h.line⟩

theorem refl (h : R.Within d r) : R.Keeps d r r := ⟨h, .of_eq rfl rfl, id⟩

theorem advanced {bearing : Bearing} (h : R.Before d r)
    (hbearing : r.current.bearing? = some bearing) :
    R.Keeps (bearing.behind d) r r.advanced := by
  have hlegal : ∀ t ∈ r.ahead, t.isIllegal = false := let ⟨_, h⟩ := h; h.legal
  exact ⟨h.advanced hbearing, .of_eq (Reader.faults_advanced hlegal) rfl, fun _ => h.line_advanced⟩

theorem reported {f : Fault} (h : R.Within d r) (hmem : f.marked ∈ R.tokens)
    (hf : f.illegal? = none) (hdeep : f.isTooDeep = false) : R.Keeps d r (r.reported f) :=
  ⟨let ⟨us, h⟩ := h; ⟨us, h.reported hf⟩, .reported hmem hdeep, by simp⟩

theorem silenced (h : R.Before d r) : R.Keeps d r r.silenced :=
  ⟨let ⟨_, h⟩ := h; ⟨_, h.silenced⟩, .silenced h.mem, by simp [Reader.silenced]⟩

end Keeps

/-- To skip the rest of the line is to go behind it. -/
theorem behind_lineSkipped (h : R.Within d r) (hline : r.line = R.line) :
    R.Behind (r.lineSkipped c) ∧ R.Tally r (r.lineSkipped c) := by
  generalize hn : r.pending.length = n
  induction n using Nat.strongRecOn generalizing d r with
  | ind n ih =>
      rcases h.cases with h | ⟨-, h⟩
      · obtain ⟨bearing, hbearing⟩ := h.bearing
        have hk := Keeps.advanced h hbearing
        have hshort := Reader.length_advanced_lt h.sound h.atEnd
        rw [Reader.lineSkipped_of_not_stops h.sound (h.not_stops hline)]
        obtain ⟨hbehind, htally⟩ := ih _ (hn ▸ hshort) hk.within h.line_advanced rfl
        exact ⟨hbehind, hk.tally.trans htally⟩
      · rw [Reader.lineSkipped_of_stops h.stops]
        exact ⟨h, .of_eq rfl rfl⟩

end Row

end Clipper
