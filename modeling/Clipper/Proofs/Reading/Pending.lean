import Clipper.Proofs.Reading.Token

/-!
What a reader still has to read. A reader keeps two tokens in sight and the others
ahead, with illegal ones among them; `pending` shows it as one list of the tokens that
can still be taken. Reading only ever moves `Onward`: it takes tokens from the front of
that list and adds faults behind those found before.
-/

namespace Clipper

/-- The character a fault reports as illegal. -/
def Fault.illegal? : Fault → Option Token
  | .illegalCharacter t => some t
  | _ => none

/-- A token that can be taken: neither illegal nor the end of the text. -/
def Token.isSignificant (t : Token) : Bool := !t.isIllegal && !t.isEnd

namespace Reader

/-- The tokens not yet taken. -/
def pending (r : Reader) : List Token :=
  (r.current :: r.next :: r.ahead).filter Token.isSignificant

/-- The illegal characters of the text: those reported and those still ahead. -/
def illegals (r : Reader) : List Token :=
  r.faults.toList.filterMap Fault.illegal? ++ r.ahead.filter Token.isIllegal

/-- An expression has been given up for its depth. -/
def TooDeep (r : Reader) : Prop := ∃ t, Fault.tooDeep t ∈ r.faults

/-- What holds of a reader whose next token can be brought under the eye. -/
structure Ready (r : Reader) : Prop where
  last_isEnd : r.last.isEnd = true
  next_legal : r.next.isIllegal = false
  ahead_open : ∀ t ∈ r.ahead, t.isEnd = false
  ahead_written : ∀ t ∈ r.ahead, t.literal.isEmpty = false
  next_written : r.next.isEnd = false → r.next.literal.isEmpty = false
  next_end : r.next.isEnd = true → r.next = r.last ∧ r.ahead = []
  muted_deep : r.muted = true → r.TooDeep

/-- What holds of every reader that reading comes to. -/
structure Sound (r : Reader) : Prop extends r.Ready where
  current_legal : r.current.isIllegal = false
  current_written : r.current.isEnd = false → r.current.literal.isEmpty = false
  current_end : r.current.isEnd = true → r.current = r.last ∧ r.next.isEnd = true

variable {r r' r'' : Reader} {c : Context}

theorem pending_of_atEnd (hr : r.Sound) (h : r.atEnd = true) : r.pending = [] := by
  obtain ⟨_, hn⟩ := hr.current_end h
  obtain ⟨_, ha⟩ := hr.next_end hn
  have hc : r.current.isEnd = true := h
  simp [pending, Token.isSignificant, hc, hn, ha]

theorem atEnd_of_pending (hr : r.Sound) (h : r.pending = []) : r.atEnd = true := by
  cases hc : r.current.isEnd with
  | true => exact hc
  | false => simp [pending, Token.isSignificant, hc, hr.current_legal] at h

theorem filter_legal {last : Token} (hlast : last.isEnd = true) (ts : List Token) :
    ((ts.dropWhile Token.isIllegal).headD last ::
        (ts.dropWhile Token.isIllegal).tail).filter Token.isSignificant =
      ts.filter Token.isSignificant := by
  induction ts with
  | nil => simp [Token.isSignificant, hlast]
  | cons t ts ih =>
      by_cases ht : t.isIllegal
      · rw [List.dropWhile_cons_of_pos ht, ih, List.filter_cons_of_neg]
        simp [Token.isSignificant, ht]
      · rw [List.dropWhile_cons_of_neg ht]
        rfl

theorem pending_shift (hlast : r.last.isEnd = true) :
    r.shift.pending = (r.next :: r.ahead).filter Token.isSignificant := by
  have hl : (r.shift.next :: r.shift.ahead).filter Token.isSignificant =
      r.ahead.filter Token.isSignificant := filter_legal hlast r.ahead
  change (r.next :: r.shift.next :: r.shift.ahead).filter _ = _
  rw [List.filter_cons, hl, ← List.filter_cons]

/-- One step takes the current token from the front of what is pending. -/
theorem pending_eq_cons (hr : r.Sound) (h : r.atEnd = false) :
    r.pending = r.current :: r.advanced.pending := by
  have hc : r.current.isEnd = false := h
  have hs : r.current.isSignificant = true := by
    simp [Token.isSignificant, hc, hr.current_legal]
  have hp : r.advanced.pending = (r.next :: r.ahead).filter Token.isSignificant :=
    pending_shift hr.last_isEnd
  rw [hp, pending, List.filter_cons_of_pos hs]

/-- Later than `r`, with every fault that `r` has found. No illegal character has been
passed over in silence. -/
structure Onward (r r' : Reader) : Prop where
  sound : r'.Sound
  pending : r'.pending <:+ r.pending
  faults : r.faults.toList <+: r'.faults.toList
  illegals : r'.illegals = r.illegals
  last : r'.last = r.last

namespace Onward

theorem refl (hr : r.Sound) : r.Onward r :=
  ⟨hr, List.suffix_refl _, List.prefix_refl _, rfl, rfl⟩

theorem trans (h : r.Onward r') (h' : r'.Onward r'') : r.Onward r'' :=
  ⟨h'.sound, h'.pending.trans h.pending, h.faults.trans h'.faults,
    h'.illegals.trans h.illegals, h'.last.trans h.last⟩

theorem mem_faults (h : r.Onward r') {f : Fault} (hf : f ∈ r.faults) : f ∈ r'.faults :=
  Array.mem_toList_iff.mp (h.faults.subset (Array.mem_toList_iff.mpr hf))

theorem tooDeep (h : r.Onward r') (hd : r.TooDeep) : r'.TooDeep :=
  hd.imp fun _ hf => h.mem_faults hf

theorem length_le (h : r.Onward r') : r'.pending.length ≤ r.pending.length := h.pending.length_le

end Onward

theorem ready_shift (hlast : r.last.isEnd = true) (hahead : ∀ t ∈ r.ahead, t.isEnd = false)
    (hwritten : ∀ t ∈ r.ahead, t.literal.isEmpty = false) (hdeep : r.muted = true → r.TooDeep) :
    r.shift.Ready where
  last_isEnd := hlast
  next_legal := by
    change ((r.ahead.dropWhile Token.isIllegal).headD r.last).isIllegal = false
    cases h : r.ahead.dropWhile Token.isIllegal with
    | nil => simp_all [Token.isIllegal, Token.isEnd]
    | cons t ts =>
        have := List.head_dropWhile_not Token.isIllegal (l := r.ahead) (by simp [h])
        simpa [h] using this
  ahead_open := fun t ht =>
    hahead t ((List.dropWhile_suffix _).subset (List.mem_of_mem_tail ht))
  ahead_written := fun t ht =>
    hwritten t ((List.dropWhile_suffix _).subset (List.mem_of_mem_tail ht))
  next_written := fun h => by
    change ((r.ahead.dropWhile Token.isIllegal).headD r.last).isEnd = false at h
    change ((r.ahead.dropWhile Token.isIllegal).headD r.last).literal.isEmpty = false
    cases hl : r.ahead.dropWhile Token.isIllegal with
    | nil => simp [hl, hlast] at h
    | cons t ts => exact hwritten t ((List.dropWhile_suffix _).subset (hl ▸ List.mem_cons_self))
  next_end := fun h => by
    change ((r.ahead.dropWhile Token.isIllegal).headD r.last).isEnd = true at h
    change (r.ahead.dropWhile Token.isIllegal).headD r.last = r.last ∧
      (r.ahead.dropWhile Token.isIllegal).tail = []
    cases hl : r.ahead.dropWhile Token.isIllegal with
    | nil => simp
    | cons t ts =>
        have ht : t ∈ r.ahead := (List.dropWhile_suffix _).subset (hl ▸ List.mem_cons_self)
        simp [hl, hahead t ht] at h
  muted_deep := fun h => (hdeep h).imp fun t ht => by
    rw [← Array.mem_toList_iff] at ht ⊢
    simp [shift, ht]

theorem sound_shift (hr : r.Ready) : r.shift.Sound where
  toReady := ready_shift hr.last_isEnd hr.ahead_open hr.ahead_written hr.muted_deep
  current_legal := hr.next_legal
  current_written := hr.next_written
  current_end := fun h => by
    obtain ⟨hn, ha⟩ := hr.next_end h
    refine ⟨hn, ?_⟩
    change ((r.ahead.dropWhile Token.isIllegal).headD r.last).isEnd = true
    simp [ha, hr.last_isEnd]

theorem sound_advanced (hr : r.Sound) : r.advanced.Sound := { sound_shift hr.toReady with }

/-- Illegal characters that a step passes over are reported. -/
theorem illegals_shift (r : Reader) : r.shift.illegals = r.illegals := by
  have hmap : ∀ ts : List Token,
      (ts.map Fault.illegalCharacter).filterMap Fault.illegal? = ts := fun ts => by
    rw [List.filterMap_map]
    exact List.filterMap_some
  have hsplit : ∀ ts : List Token, ts.takeWhile Token.isIllegal ++
      (ts.dropWhile Token.isIllegal).tail.filter Token.isIllegal = ts.filter Token.isIllegal := by
    intro ts
    induction ts with
    | nil => rfl
    | cons t ts ih =>
        by_cases ht : t.isIllegal
        · simpa [ht] using ih
        · simp [ht]
  have hfaults : r.shift.faults.toList = r.faults.toList ++
      (r.ahead.takeWhile Token.isIllegal).map Fault.illegalCharacter := by simp [shift]
  rw [illegals, illegals, hfaults, List.filterMap_append, hmap, List.append_assoc]
  exact congrArg (_ ++ ·) (hsplit r.ahead)

theorem onward_advanced (hr : r.Sound) : r.Onward r.advanced where
  sound := sound_advanced hr
  pending := by
    by_cases h : r.atEnd = true
    · have hp : r.advanced.pending = [] :=
        pending_of_atEnd (sound_advanced hr) (hr.current_end h).2
      rw [hp]
      exact List.nil_suffix
    · rw [pending_eq_cons hr (by simpa using h)]
      exact List.suffix_cons _ _
  faults := by
    simp [advanced, shift]
  illegals := illegals_shift r
  last := rfl

theorem length_advanced_lt (hr : r.Sound) (h : r.atEnd = false) :
    r.advanced.pending.length < r.pending.length := by
  rw [pending_eq_cons hr h]
  simp

theorem onward_reported (hr : r.Sound) (f : Fault) (hf : f.illegal? = none) :
    r.Onward (r.reported f) := by
  unfold reported
  split
  · exact .refl hr
  · refine ⟨?_, List.suffix_refl _, by simp, by simp [illegals, hf], rfl⟩
    exact { hr with muted_deep := fun h => (hr.muted_deep h).imp fun t ht => by simp [ht] }

@[simp] theorem pending_reported (f : Fault) : (r.reported f).pending = r.pending := by
  unfold reported
  split <;> rfl

theorem tooDeep_silenced (hr : r.Sound) : r.silenced.TooDeep := by
  unfold silenced reported
  split
  · rename_i h
    exact hr.muted_deep h
  · exact ⟨r.current, by simp⟩

theorem onward_silenced (hr : r.Sound) : r.Onward r.silenced := by
  have h := onward_reported hr (.tooDeep r.current) rfl
  refine ⟨?_, h.pending, h.faults, h.illegals, h.last⟩
  exact { h.sound with muted_deep := fun _ => tooDeep_silenced hr }

theorem onward_settled (hr : r.Sound) : r.Onward (r.settled c) := by
  unfold settled
  split
  · refine ⟨?_, List.suffix_refl _, List.prefix_refl _, rfl, rfl⟩
    exact { hr with muted_deep := fun h => by simp at h }
  · exact .refl hr

theorem onward_skipWhile (hr : r.Sound) (more : Reader → Bool) (rounds : List Token) :
    r.Onward (Grammar.skipWhile more rounds r) := by
  induction rounds generalizing r with
  | nil => exact .refl hr
  | cons t rounds ih =>
      rw [Grammar.skipWhile]
      split
      · exact (onward_advanced hr).trans (ih (sound_advanced hr))
      · exact .refl hr

theorem onward_lineSkipped (hr : r.Sound) : r.Onward (r.lineSkipped c) := onward_skipWhile hr _ _

theorem onward_recovered (hr : r.Sound) (start : Nat) : r.Onward (r.recovered c start) := by
  unfold recovered
  split
  · exact (onward_advanced hr).trans (onward_lineSkipped (sound_advanced hr))
  · exact onward_lineSkipped hr

end Reader

end Clipper
