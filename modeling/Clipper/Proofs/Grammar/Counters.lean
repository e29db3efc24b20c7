import Clipper.Proofs.Grammar.Phrase

/-!
What a text without errors is warned of: the name behind the end of a loop is not the name of
the loop's counter. It takes no tree to see that. Only the words that open and close a loop
count, so the tokens alone tell which counter belongs to which end.
-/

namespace Clipper

namespace Token

/-- The word opens or closes a loop with a counter. -/
def countsLoop (t : Token) : Bool := t.isKeyword .kwFor || t.isKeyword .kwNext

theorem countsLoop_of_kind {t : Token} {k : TokenKind} (ht : t.kind = k)
    (hk : (k != .keyword .kwFor && k != .keyword .kwNext) = true) :
    t.countsLoop = false := by
  simpa [countsLoop, isKeyword, ht, bne] using hk

theorem countsLoop_of_keyword {t : Token} {k : Keyword} (ht : t.isKeyword k = true)
    (hk : (TokenKind.keyword k != .keyword .kwFor && TokenKind.keyword k != .keyword .kwNext) =
      true) : t.countsLoop = false :=
  countsLoop_of_kind (by simpa [isKeyword] using ht) hk

theorem countsLoop_of_punctuation {t : Token} {p : Punctuation} (ht : t.isPunctuation p = true) :
    t.countsLoop = false :=
  countsLoop_of_kind (by simpa [isPunctuation] using ht) rfl

theorem countsLoop_of_operator {t : Token} {o : Operator} (ht : t.isOperator o = true) :
    t.countsLoop = false :=
  countsLoop_of_kind (by simpa [isOperator] using ht) rfl

end Token

namespace Grammar

/-- What is said of the name at a spot behind the end of a loop with this counter. -/
def again (counter : Token) (s : Spot) : List Fault :=
  match s.rest with
  | t :: _ =>
      if t.kind = .identifier ∧ t.line = s.line ∧ (Name.mk counter).isMissing = false ∧
        Text.sameWord t.literal counter.literal = false
      then [.otherCounter t counter]
      else []
  | [] => []

/-- What is said of the ends of loops in a text, where loops with these counters are open, the
innermost first. -/
def recounts : List Token → List Token → List Fault
  | _, [] => []
  | counters, t :: ts =>
      if t.isKeyword .kwFor then recounts (ts.head?.toList ++ counters) ts
      else if t.isKeyword .kwNext then
        match counters with
        | n :: outer => again n ⟨t.endLine, ts⟩ ++ recounts outer ts
        | [] => recounts [] ts
      else recounts counters ts

section

variable {counters : List Token} {l : Nat} {n t : Token} {u : List Token}

theorem again_cons : again n ⟨l, t :: u⟩ =
    if t.kind = .identifier ∧ t.line = l ∧ (Name.mk n).isMissing = false ∧
      Text.sameWord t.literal n.literal = false then [.otherCounter t n] else [] := rfl

theorem again_absent {s : Spot}
    (hs : s.next (fun t => t.kind == .identifier && t.line == s.line) = false) :
    again n s = [] := by
  unfold again
  split
  · rename_i t u hrest
    simp only [Spot.next, hrest, List.head?_cons, Option.any_some, Bool.and_eq_false_iff,
      beq_eq_false_iff_ne] at hs
    exact if_neg fun hall => hs.elim (absurd hall.1) (absurd hall.2.1)
  · rfl

theorem recounts_cons : recounts counters (t :: u) =
    if t.isKeyword .kwFor then recounts (u.head?.toList ++ counters) u
    else if t.isKeyword .kwNext then
      match counters with
      | n :: outer => again n ⟨t.endLine, u⟩ ++ recounts outer u
      | [] => recounts [] u
    else recounts counters u := rfl

theorem recounts_skip (ht : t.countsLoop = false) :
    recounts counters (t :: u) = recounts counters u := by
  obtain ⟨hfor, hnext⟩ := Bool.or_eq_false_iff.mp ht
  rw [recounts_cons, hfor, hnext, if_neg Bool.false_ne_true, if_neg Bool.false_ne_true]

theorem recounts_end (ht : t.isEnd = true) : recounts counters [t] = [] :=
  recounts_skip (Token.countsLoop_of_kind (by simpa [Token.isEnd] using ht) rfl)

theorem recounts_for (ht : t.isKeyword .kwFor = true) :
    recounts counters (t :: n :: u) = recounts (n :: counters) (n :: u) := by
  rw [recounts_cons, if_pos ht]
  rfl

theorem not_isKeyword_for (ht : t.isKeyword .kwNext = true) : ¬ t.isKeyword .kwFor = true := by
  rw [Token.isKeyword, beq_iff_eq] at ht ⊢
  simp [ht]

theorem recounts_next (ht : t.isKeyword .kwNext = true) :
    recounts (n :: counters) (t :: u) = again n ⟨t.endLine, u⟩ ++ recounts counters u := by
  rw [recounts_cons, if_neg (not_isKeyword_for ht), if_pos ht]

/-- Where no loop is open. -/
theorem recounts_unopened (ht : t.isKeyword .kwNext = true) :
    recounts [] (t :: u) = recounts [] u := by
  rw [recounts_cons, if_neg (not_isKeyword_for ht), if_pos ht]

end

/-- Between two spots this is said of the ends of loops, whichever loops are open around, and a
strict reading finds nothing to be said. -/
structure Counted (lax : Bool) (ws : List Fault) (s s' : Spot) : Prop where
  strict : lax = false → ws = []
  recounts : ∀ counters, recounts counters s.rest = ws ++ Grammar.recounts counters s'.rest

namespace Counted

variable {lax : Bool} {ws vs : List Fault} {s s' s'' : Spot} {l : Nat} {n t : Token}
  {u : List Token}

theorem refl (s : Spot) : Counted lax [] s s := ⟨fun _ => rfl, fun _ => rfl⟩

theorem trans (h : Counted lax ws s s') (h' : Counted lax vs s' s'') :
    Counted lax (ws ++ vs) s s'' where
  strict hlax := by rw [h.strict hlax, h'.strict hlax, List.append_nil]
  recounts counters := by rw [h.recounts, h'.recounts, List.append_assoc]

theorem token (ht : t.countsLoop = false) : Counted lax [] ⟨l, t :: u⟩ ⟨t.endLine, u⟩ :=
  ⟨fun _ => rfl, fun _ => recounts_skip ht⟩

/-- Behind one more token. -/
theorem behind (h : Counted lax ws ⟨t.endLine, u⟩ s) (ht : t.countsLoop = false) :
    Counted lax ws ⟨l, t :: u⟩ s := (token ht).trans h

/-- Up to one more token. -/
theorem upTo (h : Counted lax ws s ⟨l, t :: u⟩) (ht : t.countsLoop = false) :
    Counted lax ws s ⟨t.endLine, u⟩ := by
  have := h.trans (token ht)
  rwa [List.append_nil] at this

/-- The name of a counter behind the end of its loop. -/
theorem again (h : CounterAgain lax n s s') :
    (lax = false → Grammar.again n s = []) ∧
      ∀ counters, Grammar.recounts counters s.rest = Grammar.recounts counters s'.rest := by
  cases h with
  | absent hs => exact ⟨fun _ => again_absent hs, fun _ => rfl⟩
  | named ht hline hsame =>
      refine ⟨fun hlax => ?_, fun _ => recounts_skip (Token.countsLoop_of_kind ht rfl)⟩
      rw [hlax, Bool.false_or] at hsame
      rw [again_cons, if_neg]
      simp [hsame]

/-- A loop from its counter to its end. -/
theorem loop {sign k : Token} {v : List Token} {l' : Nat} (ht : t.isKeyword .kwFor = true)
    (hn : n.kind = .identifier) (hsign : sign.countsLoop = false)
    (h : Counted lax ws ⟨sign.endLine, u⟩ ⟨l', k :: v⟩) (hk : k.isKeyword .kwNext = true)
    (hagain : CounterAgain lax n ⟨k.endLine, v⟩ s) :
    Counted lax (ws ++ Grammar.again n ⟨k.endLine, v⟩) ⟨l, t :: n :: sign :: u⟩ s where
  strict hlax := by rw [h.strict hlax, (again hagain).1 hlax, List.append_nil]
  recounts counters := by
    rw [recounts_for ht, recounts_skip (Token.countsLoop_of_kind hn rfl), recounts_skip hsign,
      h.recounts, recounts_next hk, (again hagain).2, List.append_assoc]

end Counted

/-! ### Parts without expressions -/

section Parts

variable {lax : Bool} {s s' : Spot} {t : Token}

theorem Names.counted {ns : List Name} (h : Names ns s s') : Counted lax [] s s' := by
  induction h with
  | last hn _ => exact .token (Token.countsLoop_of_kind hn rfl)
  | more hn hcomma _ ih =>
      exact (ih.behind (Token.countsLoop_of_punctuation hcomma)).behind
        (Token.countsLoop_of_kind hn rfl)

theorem Parameters.counted {ns : List Name} (h : Parameters ns s s') : Counted lax [] s s' := by
  cases h with
  | absent _ => exact .refl _
  | empty ho _ hclose =>
      exact (Counted.token (Token.countsLoop_of_punctuation hclose)).behind
        (Token.countsLoop_of_punctuation ho)
  | names ho _ hns hclose =>
      exact (hns.counted.upTo (Token.countsLoop_of_punctuation hclose)).behind
        (Token.countsLoop_of_punctuation ho)

theorem Parent.counted {parent : Option Name} (h : Parent parent s s') : Counted lax [] s s' := by
  cases h with
  | absent _ => exact .refl _
  | named hf ht =>
      exact (Counted.token (Token.countsLoop_of_kind ht rfl)).behind
        (Token.countsLoop_of_keyword hf rfl)

theorem LoopWord.counted (h : LoopWord t s s') : Counted lax [] s s' := by
  cases h with
  | «while» ht => exact .token (Token.countsLoop_of_keyword ht rfl)
  | doWhile ht hw =>
      exact (Counted.token (Token.countsLoop_of_keyword hw rfl)).behind
        (Token.countsLoop_of_keyword ht rfl)

theorem Closing.counted {k : Keyword} {closed : Option Token}
    (hk : k ∉ [Keyword.kwFor, .kwNext]) (h : Closing k closed s s') : Counted lax [] s s' := by
  cases h with
  | absent _ => exact .refl _
  | word ht =>
      refine .token (Token.countsLoop_of_keyword ht ?_)
      simp_all

end Parts

end Grammar

end Clipper
