import Clipper.Proofs.Reading.Run

/-!
What each production of the grammar does, as a rule for its runs: which runs of its
parts it consists of and what it makes of their results. Here are the productions
that take or expect a token, those that go on behind a fault, and lists. The loops
are left closed.
-/

namespace Clipper

namespace Reader

/-- The reader with a fault more, unless it keeps silent. -/
def reported (r : Reader) (f : Fault) : Reader :=
  if r.muted then r else { r with faults := r.faults.push f }

/-- The reader that has given up an expression for its depth. -/
def silenced (r : Reader) : Reader := { r.reported (.tooDeep r.current) with muted := true }

/-- The reader at the next line, or at a word that closes an open block. -/
def lineSkipped (c : Context) (r : Reader) : Reader :=
  Grammar.skipWhile (fun r => !r.stops c) r.rounds r

/-- The reader behind something that began at an offset and was given up. -/
def recovered (c : Context) (start : Nat) (r : Reader) : Reader :=
  if r.current.span.start == start && !r.current.isEnd then r.advanced.lineSkipped c
  else r.lineSkipped c

/-- The reader behind a statement. -/
def settled (c : Context) (r : Reader) : Reader :=
  if c.outermost then { r with muted := false } else r

section

variable (r : Reader) (f : Fault)

@[simp] theorem reported_current : (r.reported f).current = r.current := by
  unfold reported
  split <;> rfl

@[simp] theorem reported_next : (r.reported f).next = r.next := by
  unfold reported
  split <;> rfl

@[simp] theorem reported_ahead : (r.reported f).ahead = r.ahead := by
  unfold reported
  split <;> rfl

@[simp] theorem reported_last : (r.reported f).last = r.last := by
  unfold reported
  split <;> rfl

@[simp] theorem reported_line : (r.reported f).line = r.line := by
  unfold reported
  split <;> rfl

@[simp] theorem reported_muted : (r.reported f).muted = r.muted := by
  unfold reported
  split <;> rfl

end

end Reader

namespace Grammar

variable {α : Type} {e : Expressions} {c : Context} {r r' : Reader}

/-! ### Tokens -/

@[simp] theorem run_current {t : Token} : Run current r t r' ↔ r.current = t ∧ r = r' := by
  simp only [current, bind_pure_comp, run_map, run_get]
  constructor
  · rintro ⟨s, ⟨rfl, rfl⟩, rfl⟩
    exact ⟨rfl, rfl⟩
  · rintro ⟨rfl, rfl⟩
    exact ⟨r, ⟨rfl, rfl⟩, rfl⟩

theorem run_bind_current {f : Token → Reading β} {y : β} :
    Run (current >>= f) r y r' ↔ Run (f r.current) r y r' := Iff.rfl

@[simp] theorem run_advance {t : Token} :
    Run advance r t r' ↔ r.current = t ∧ r.advanced = r' := by
  simp [advance]

@[simp] theorem run_report {f : Fault} {u : Unit} :
    Run (report f) r u r' ↔ r.reported f = r' := by
  simp [report, Reader.reported]

@[simp] theorem yields_refuse {f : Fault} {x : α} : ¬Yields (refuse f) r x r' := by
  simp [refuse]

@[simp] theorem refuses_refuse {f : Fault} :
    Refuses (refuse f : Attempt α) r r' ↔ r.reported f = r' := by
  simp [refuse]

@[simp] theorem yields_refuseDepth {x : α} : ¬Yields refuseDepth r x r' := by
  simp [refuseDepth]

@[simp] theorem refuses_refuseDepth :
    Refuses (refuseDepth : Attempt α) r r' ↔ r.silenced = r' := by
  simp [refuseDepth, Reader.silenced, and_assoc]

@[simp] theorem run_unmute {u : Unit} :
    Run unmute r u r' ↔ { r with muted := false } = r' := by
  simp [unmute]

@[simp] theorem run_take? {p : Token → Bool} {t : Option Token} :
    Run (take? p) r t r' ↔
      if p r.current then some r.current = t ∧ r.advanced = r' else none = t ∧ r = r' := by
  simp only [take?, run_bind, run_current, run_ite, bind_pure_comp, run_map, run_advance,
    run_pure]
  constructor
  · rintro ⟨_, _, ⟨rfl, rfl⟩, h⟩
    split at h
    · obtain ⟨_, ⟨rfl, rfl⟩, rfl⟩ := h
      simp_all
    · simp_all
  · intro h
    refine ⟨_, _, ⟨rfl, rfl⟩, ?_⟩
    split at h
    · obtain ⟨rfl, rfl⟩ := h
      simp_all
    · simp_all

@[simp] theorem run_keyword? {k : Keyword} {t : Option Token} :
    Run (keyword? k) r t r' ↔
      if r.current.isKeyword k then some r.current = t ∧ r.advanced = r'
      else none = t ∧ r = r' := run_take?

@[simp] theorem run_punctuation? {p : Punctuation} {t : Option Token} :
    Run (punctuation? p) r t r' ↔
      if r.current.isPunctuation p then some r.current = t ∧ r.advanced = r'
      else none = t ∧ r = r' := run_take?

@[simp] theorem run_operator? {o : Operator} {t : Option Token} :
    Run (operator? o) r t r' ↔
      if r.current.isOperator o then some r.current = t ∧ r.advanced = r'
      else none = t ∧ r = r' := run_take?

theorem yields_expectKeyword {k : Keyword} {u : Unit} :
    Yields (expectKeyword k) r u r' ↔ r.current.isKeyword k ∧ r.advanced = r' := by
  by_cases h : r.current.isKeyword k <;> simp [expectKeyword, h, and_assoc]

theorem refuses_expectKeyword {k : Keyword} :
    Refuses (expectKeyword k) r r' ↔
      r.current.isKeyword k = false ∧
        r.reported (.expected ("'" ++ k.canonical ++ "'") r.current) = r' := by
  by_cases h : r.current.isKeyword k <;> simp [expectKeyword, h, and_assoc]

theorem yields_expectPunctuation {p : Punctuation} {u : Unit} :
    Yields (expectPunctuation p) r u r' ↔ r.current.isPunctuation p ∧ r.advanced = r' := by
  by_cases h : r.current.isPunctuation p <;> simp [expectPunctuation, h, and_assoc]

theorem refuses_expectPunctuation {p : Punctuation} :
    Refuses (expectPunctuation p) r r' ↔
      r.current.isPunctuation p = false ∧
        r.reported (.expected ("'" ++ p.canonical ++ "'") r.current) = r' := by
  by_cases h : r.current.isPunctuation p <;> simp [expectPunctuation, h, and_assoc]

theorem yields_name {what : String} {n : Name} :
    Yields (name what) r n r' ↔
      r.current.kind = .identifier ∧ ⟨r.current⟩ = n ∧ r.advanced = r' := by
  by_cases h : r.current.kind = .identifier
  · simp [name, h, and_assoc, and_comm, and_left_comm]
  · simp [name, h, and_assoc]

theorem refuses_name {what : String} :
    Refuses (name what) r r' ↔
      r.current.kind ≠ .identifier ∧ r.reported (.expected what r.current) = r' := by
  by_cases h : r.current.kind = .identifier <;> simp [name, h, and_assoc]

theorem run_nameOrMissing {what : String} {n : Name} :
    Run (nameOrMissing what) r n r' ↔
      if r.current.kind = .identifier then ⟨r.current⟩ = n ∧ r.advanced = r'
      else .missing r.current = n ∧ r.reported (.expected what r.current) = r' := by
  simp only [nameOrMissing, run_bind, exists_except, run_ok, run_error, yields_name,
    refuses_name]
  by_cases h : r.current.kind = .identifier
  · simp [h, and_assoc]
  · simp only [h, false_and, exists_false, ne_eq, not_false_eq_true, true_and, false_or, if_false]
    constructor
    · rintro ⟨_, rfl, _, _, ⟨rfl, rfl⟩, rfl, rfl⟩
      simp
    · rintro ⟨rfl, rfl⟩
      simp

/-! ### Going on behind a fault -/

theorem run_skipLine {u : Unit} : Run (skipLine c) r u r' ↔ r.lineSkipped c = r' := by
  simp [skipLine, Reader.lineSkipped]

theorem run_recover {start : Nat} {u : Unit} :
    Run (recover c start) r u r' ↔ r.recovered c start = r' := by
  simp only [recover, Reader.recovered, run_bind, run_current]
  constructor
  · rintro ⟨_, _, ⟨rfl, rfl⟩, h⟩
    split at h <;> simp_all [run_skipLine]
  · rintro rfl
    refine ⟨_, _, ⟨rfl, rfl⟩, ?_⟩
    split <;> simp [run_skipLine]

theorem run_single {a : Attempt α} {out : List α × Bool} :
    Run (single a) r out r' ↔
      (∃ x, Yields a r x r' ∧ ([x], true) = out) ∨ Refuses a r r' ∧ ([], false) = out := by
  simp only [single, run_bind, exists_except]
  constructor
  · rintro (⟨x, s, h, h'⟩ | ⟨s, h, h'⟩)
    · obtain ⟨rfl, rfl⟩ := run_pure.mp h'
      exact .inl ⟨x, h, rfl⟩
    · obtain ⟨rfl, rfl⟩ := run_pure.mp h'
      exact .inr ⟨h, rfl⟩
  · rintro (⟨x, h, rfl⟩ | ⟨h, rfl⟩)
    · exact .inl ⟨x, r', h, run_pure.mpr ⟨rfl, rfl⟩⟩
    · exact .inr ⟨r', h, run_pure.mpr ⟨rfl, rfl⟩⟩

theorem run_recovering {body : Reading (List α × Bool)} {xs : List α} :
    Run (recovering c body) r xs r' ↔
      ∃ whole s, Run body r (xs, whole) s ∧
        (if whole then s else s.recovered c r.current.span.start) = r' := by
  simp only [recovering, run_bind, run_current]
  constructor
  · rintro ⟨_, _, ⟨rfl, rfl⟩, ⟨ys, whole⟩, s, h, h'⟩
    cases whole
    · obtain ⟨_, _, h', h''⟩ := run_bind.mp h'
      obtain rfl := run_recover.mp h'
      obtain ⟨rfl, rfl⟩ := run_pure.mp h''
      exact ⟨false, s, h, rfl⟩
    · obtain ⟨rfl, rfl⟩ := run_pure.mp h'
      exact ⟨true, s, h, rfl⟩
  · rintro ⟨whole, s, h, rfl⟩
    refine ⟨_, _, ⟨rfl, rfl⟩, (xs, whole), s, h, ?_⟩
    cases whole <;> simp [run_recover]

theorem yields_itemsBefore {close : Punctuation} {item : Attempt α} {xs : List α} :
    Yields (itemsBefore close item) r xs r' ↔
      if r.current.isPunctuation close then [] = xs ∧ r = r'
      else Run (listed item) r (xs, true) r' := by
  by_cases h : r.current.isPunctuation close
  · simp [itemsBefore, h, and_assoc]
  · simp [itemsBefore, h, and_assoc]

theorem refuses_itemsBefore {close : Punctuation} {item : Attempt α} :
    Refuses (itemsBefore close item) r r' ↔
      r.current.isPunctuation close = false ∧ ∃ xs, Run (listed item) r (xs, false) r' := by
  by_cases h : r.current.isPunctuation close
  · simp [itemsBefore, h, and_assoc]
  · simp [itemsBefore, h, and_assoc]

theorem yields_listUpTo {close : Punctuation} {item : Attempt α} {xs : List α} :
    Yields (listUpTo close item) r xs r' ↔
      if r.current.isPunctuation close then [] = xs ∧ r.advanced = r'
      else ∃ s, Run (listed item) r (xs, true) s ∧ s.current.isPunctuation close ∧
        s.advanced = r' := by
  by_cases h : r.current.isPunctuation close
  · simp [listUpTo, yields_itemsBefore, yields_expectPunctuation, h, and_assoc, and_comm]
  · simp only [listUpTo, yields_bind, yields_itemsBefore, yields_expectPunctuation, yields_pure, h]
    constructor
    · rintro ⟨_, s, hitems, _, _, ⟨hclose, rfl⟩, rfl, rfl⟩
      exact ⟨s, hitems, hclose, rfl⟩
    · rintro ⟨s, hitems, hclose, rfl⟩
      exact ⟨xs, s, hitems, (), _, ⟨hclose, rfl⟩, rfl, rfl⟩

theorem refuses_listUpTo {close : Punctuation} {item : Attempt α} :
    Refuses (listUpTo close item) r r' ↔
      r.current.isPunctuation close = false ∧
        ((∃ xs, Run (listed item) r (xs, false) r') ∨
          ∃ xs s, Run (listed item) r (xs, true) s ∧ Refuses (expectPunctuation close) s r') := by
  by_cases h : r.current.isPunctuation close
  · simp [listUpTo, yields_itemsBefore, refuses_itemsBefore, refuses_expectPunctuation, h,
      and_assoc]
  · simp [listUpTo, yields_itemsBefore, refuses_itemsBefore, h]

end Grammar

end Clipper
