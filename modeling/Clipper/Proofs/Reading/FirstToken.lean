import Clipper.Proofs.Reading.Text

/-!
The line on which the token before a statement ended does not matter for the statement: no
question about lines is asked before its first token has been taken.
-/

namespace Clipper.Grammar

variable {e : Expressions} {c : Context} {n l : Nat} {r s : Reader}

theorem run_advance_line {α : Type} {k : Token → Reading α} {x : α}
    (h : Run (advance >>= k) r x s) : Run (advance >>= k) { r with line := l } x s := by
  obtain ⟨t, u, ht, h⟩ := run_bind.mp h
  exact run_bind.mpr ⟨t, u, ht, h⟩

theorem run_lift_advance_line {α : Type} {k : Token → Attempt α} {x : Except Refusal α}
    (h : Run (liftM advance >>= k).run r x s) :
    Run (liftM advance >>= k).run { r with line := l } x s := by
  rcases run_attempt h with ⟨y, rfl, h⟩ | ⟨rfl, h⟩
  · obtain ⟨t, u, ht, h⟩ := yields_bind.mp h
    exact run_ok.mpr (yields_bind.mpr ⟨t, u, yields_lift.mpr (yields_lift.mp ht), h⟩)
  · rcases refuses_bind.mp h with h | ⟨t, u, ht, h⟩
    · exact absurd h refuses_lift
    · exact run_error.mpr (refuses_bind.mpr (.inr ⟨t, u, yields_lift.mpr (yields_lift.mp ht), h⟩))

theorem run_lift_line {α : Type} {m : Reading α} {x : Except Refusal α}
    (hm : ∀ {y}, Run m r y s → Run m { r with line := l } y s)
    (h : Run (liftM m : Attempt α).run r x s) :
    Run (liftM m : Attempt α).run { r with line := l } x s := by
  rcases run_attempt h with ⟨y, rfl, h⟩ | ⟨rfl, h⟩
  · exact run_ok.mpr (yields_lift.mpr (hm (yields_lift.mp h)))
  · exact absurd h refuses_lift

/-- Every operand takes its first token before anything else. -/
theorem run_begun_line {st : Starter} {x : Except Refusal Expr}
    (h : Run (begun e c st).run r x s) : Run (begun e c st).run { r with line := l } x s := by
  cases st with
  | name | date | boolean | nil | integer | float | array | ownMember =>
      exact run_lift_advance_line h
  | group =>
      rcases run_attempt h with ⟨y, rfl, h⟩ | ⟨rfl, h⟩
      · exact run_ok.mpr (yields_group.mpr (yields_group.mp h))
      · exact run_error.mpr (refuses_group.mpr (refuses_group.mp h))
  | string | unary | branch | whileLoop | forLoop => exact run_lift_line run_advance_line h

/-- An expression that is begun takes a token first; otherwise the token stays. -/
theorem run_expression_line {x : Except Refusal Expr} {p : Nat}
    (h : Run (expression (n + 1) c p).run r x s) :
    Run (expression (n + 1) c p).run { r with line := l } x s ∨
      x = .error .reported ∧ ∃ f, r.reported f = s ∧
        Refuses (expression (n + 1) c p) { r with line := l }
          ({ r with line := l }.reported f) := by
  rcases run_attempt h with ⟨y, rfl, h⟩ | ⟨rfl, h⟩
  · obtain ⟨left, t, ht, h⟩ := yields_expression_succ.mp h
    obtain ⟨st, hst, ht⟩ := yields_operand.mp ht
    exact .inl (yields_expression_succ.mpr
      ⟨left, t, yields_operand.mpr ⟨st, hst, run_begun_line (run_ok.mpr ht)⟩, h⟩)
  · rcases refuses_expression_succ.mp h with h | ⟨left, t, ht, h⟩
    · rcases refuses_operand.mp h with ⟨st, hst, h⟩ | ⟨hst, h⟩
      · exact .inl (refuses_expression_succ.mpr
          (.inl (refuses_operand.mpr (.inl ⟨st, hst, run_begun_line (run_error.mpr h)⟩))))
      · exact .inr ⟨rfl, _, h,
          refuses_expression_succ.mpr (.inl (refuses_operand.mpr (.inr ⟨hst, rfl⟩)))⟩
    · obtain ⟨st, hst, ht⟩ := yields_operand.mp ht
      exact .inl (refuses_expression_succ.mpr (.inr
        ⟨left, t, yields_operand.mpr ⟨st, hst, run_begun_line (run_ok.mpr ht)⟩, h⟩))

theorem run_returned_line {out : List Stmt × Bool} (h : Run (single (returned e c)) r out s) :
    Run (single (returned e c)) { r with line := l } out s := by
  rcases run_single.mp h with ⟨x, h, hout⟩ | ⟨h, hout⟩
  · exact run_single.mpr (.inl ⟨x, run_ok.mp (run_lift_advance_line (run_ok.mpr h)), hout⟩)
  · exact run_single.mpr (.inr ⟨run_error.mp (run_lift_advance_line (run_error.mpr h)), hout⟩)

theorem run_expressionStatement_line {out : List Stmt × Bool}
    (h : Run (single (expressionStatement (expression (n + 1)) c)) r out s) :
    Run (single (expressionStatement (expression (n + 1)) c)) { r with line := l } out s ∨
      out = ([], false) ∧ ∃ f, r.reported f = s ∧
        Run (single (expressionStatement (expression (n + 1)) c)) { r with line := l } out
          ({ r with line := l }.reported f) := by
  simp only [run_single, yields_expressionStatement, refuses_expressionStatement] at h ⊢
  rcases h with ⟨x, ⟨y, hy, hstops, hx⟩, hout⟩ | ⟨hy | ⟨y, t, hy, hend⟩, hout⟩
  · rcases run_expression_line (run_ok.mpr hy) with h | ⟨h, -⟩
    · exact .inl (.inl ⟨x, ⟨y, h, hstops, hx⟩, hout⟩)
    · cases h
  · rcases run_expression_line (run_error.mpr hy) with h | ⟨-, f, hf, h⟩
    · exact .inl (.inr ⟨.inl h, hout⟩)
    · exact .inr ⟨hout.symm, f, hf, .inr ⟨.inl h, hout⟩⟩
  · rcases run_expression_line (run_ok.mpr hy) with h | ⟨h, -⟩
    · exact .inl (.inr ⟨.inr ⟨y, t, h, hend⟩, hout⟩)
    · cases h

theorem run_plain_line {out : List Stmt × Bool}
    (h : Run (plain (expression (n + 1)) c) r out s) :
    Run (plain (expression (n + 1)) c) { r with line := l } out s ∨
      out = ([], false) ∧ ∃ f, r.reported f = s ∧
        Run (plain (expression (n + 1)) c) { r with line := l } out
          ({ r with line := l }.reported f) := by
  simp only [run_plain] at h ⊢
  split at h
  · rename_i hstorage
    simp only [if_pos hstorage]
    exact .inl (run_advance_line h)
  rename_i hstorage
  simp only [if_neg hstorage]
  split at h
  · rename_i hreturn
    simp only [if_pos hreturn]
    exact .inl (run_returned_line h)
  rename_i hreturn
  simp only [if_neg hreturn]
  split at h
  · rename_i hopens
    simp only [if_pos hopens]
    exact run_expressionStatement_line h
  · rename_i hopens
    simp only [if_neg hopens]
    exact .inl h

theorem run_general_line {out : List Stmt × Bool}
    (h : Run (general (expression (n + 1)) c) r out s) :
    Run (general (expression (n + 1)) c) { r with line := l } out s ∨
      out = ([], false) ∧ ∃ f, r.reported f = s ∧
        Run (general (expression (n + 1)) c) { r with line := l } out
          ({ r with line := l }.reported f) := by
  simp only [run_general] at h ⊢
  split at h
  · rename_i hroutine
    simp only [if_pos hroutine]
    exact run_plain_line h
  rename_i hroutine
  simp only [if_neg hroutine]
  split at h
  · rename_i hfunction
    have hfunction' : opensFunction { r with line := l } = true := hfunction
    simp only [if_pos hfunction']
    obtain ⟨f, hf, hout⟩ := h
    exact .inl ⟨f, run_advance_line hf, hout⟩
  rename_i hfunction
  have hfunction' : ¬opensFunction { r with line := l } = true := hfunction
  simp only [if_neg hfunction']
  split at h
  · rename_i hclass
    simp only [if_pos hclass]
    obtain ⟨d, hd, hout⟩ := h
    exact .inl ⟨d, run_advance_line hd, hout⟩
  · rename_i hclass
    simp only [if_neg hclass]
    exact run_plain_line h

/-- A statement does not ask on which line the text before it ended. -/
theorem run_statement_line {ss : List Stmt} (hopen : r.atEnd = false)
    (h : Run (statement (expression (n + 1)) c) r ss s) :
    Run (statement (expression (n + 1)) c) { r with line := l } ss s := by
  obtain ⟨t, ht, hs⟩ := run_wholeStatement.mp h
  obtain ⟨whole, u, hu, ht⟩ := run_recovering.mp ht
  refine run_wholeStatement.mpr ⟨t, run_recovering.mpr ?_, hs⟩
  rcases run_general_line (l := l) hu with hu | ⟨hout, f, rfl, hline⟩
  · exact ⟨whole, u, hu, ht⟩
  · obtain rfl : whole = false := (Prod.mk.inj hout).2
    refine ⟨false, _, hline, ?_⟩
    -- Nothing has been taken, so one token is passed over, and with it the difference.
    have htaken : ∀ {r : Reader}, r.atEnd = false →
        (r.reported f).recovered c r.current.span.start =
          (r.reported f).advanced.lineSkipped c := by
      intro r hr
      have hcurrent : (r.reported f).current = r.current := by simp
      have hend : r.current.isEnd = false := hr
      rw [Reader.recovered, hcurrent, hend]
      simp
    have hsame : ∀ r : Reader,
        ({ r with line := l }.reported f).advanced = (r.reported f).advanced := by
      rintro ⟨_, _, _, _, _, muted, _⟩
      cases muted <;> rfl
    have hopen' : { r with line := l }.atEnd = false := hopen
    rw [← ht, if_neg (by simp), if_neg (by simp), htaken hopen', htaken hopen, hsame]

/-- Nor does a whole text. -/
theorem Repeats.line {ss : List Stmt} (l : Nat)
    (h : Repeats (!·.atEnd) (statement (expression maxDepth) .file) r ss s) :
    ∃ s' : Reader, s'.faults = s.faults ∧
      Repeats (!·.atEnd) (statement (expression maxDepth) .file) { r with line := l } ss s' := by
  cases h with
  | stop hm => exact ⟨{ r with line := l }, rfl, .stop hm⟩
  | round hm hx hrest =>
      exact ⟨s, rfl, .round hm (run_statement_line (by simpa using hm) hx) hrest⟩

end Clipper.Grammar
