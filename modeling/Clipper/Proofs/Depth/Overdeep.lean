import Clipper.Proofs.Depth.Confined
import Clipper.Proofs.Grammar.Completeness.Program

/-!
An expression that is too deep, as a statement outside all other expressions. It hides nothing
but itself: reading goes on on the next line, and faults are reported there again. Inside
another expression the reader stays silent until that one is over.
-/

namespace Clipper

open Grammar

/-! ### Readers -/

namespace Reader

variable {r r' : Reader}

/-- What lies in front of a reader is all that is pending. -/
theorem Clear.front (hr : r.Clear) :
    r.current = r.pending.headD r.last ∧ r.next = r.pending.tail.headD r.last ∧
      r.ahead = r.pending.drop 2 := by
  cases hend : r.atEnd with
  | true =>
      obtain ⟨hcurrent, hnext⟩ := hr.current_end hend
      obtain ⟨hlast, hahead⟩ := hr.next_end hnext
      simp [pending_of_atEnd hr.toSound hend, hcurrent, hlast, hahead]
  | false =>
      have hahead : r.ahead.filter Token.isSignificant = r.ahead :=
        List.filter_eq_self.mpr fun t ht => by
          simp [Token.isSignificant, hr.legal t ht, hr.ahead_open t ht]
      have hpending : r.pending =
          r.current :: (if r.next.isSignificant then r.next :: r.ahead else r.ahead) := by
        have hcurrent : r.current.isSignificant = true := by
          have hopen : r.current.isEnd = false := hend
          simp [Token.isSignificant, hr.current_legal, hopen]
        rw [pending, List.filter_cons_of_pos hcurrent, List.filter_cons, hahead]
      cases hnext : r.next.isEnd with
      | true =>
          obtain ⟨hlast, hnone⟩ := hr.next_end hnext
          simp [hpending, Token.isSignificant, hlast, hnone, hr.last_isEnd]
      | false => simp [hpending, Token.isSignificant, hnext, hr.next_legal]

/-- Where two readers stand at the same spot they differ in what they have reported only. -/
theorem Clear.eq_of_spot (hr : r.Clear) (hr' : r'.Clear) (hspot : r.spot = r'.spot) :
    r = { r' with faults := r.faults } := by
  obtain ⟨hline, hrest⟩ := Spot.mk.inj hspot
  obtain ⟨hpending, hlast⟩ := List.append_inj' hrest rfl
  have hlast : r.last = r'.last := List.singleton_inj.mp hlast
  obtain ⟨hcurrent, hnext, hahead⟩ := hr.front
  obtain ⟨hcurrent', hnext', hahead'⟩ := hr'.front
  have hmuted := hr.unmuted.trans hr'.unmuted.symm
  rw [hpending, hlast, ← hcurrent'] at hcurrent
  rw [hpending, hlast, ← hnext'] at hnext
  rw [hpending, ← hahead'] at hahead
  obtain ⟨_, _, _, _, _, _, _⟩ := r
  obtain ⟨_, _, _, _, _, _, _⟩ := r'
  cases hcurrent
  cases hnext
  cases hahead
  cases hlast
  cases hline
  cases hmuted
  rfl

end Reader

/-! ### Statements -/

namespace Row

variable {R : Row} {c : Context} {r r' s : Reader} {t : Token} {ts : List Token}

/-- At the beginning of the line. -/
theorem before_of_clear (hr : r.Clear) (hR : balances 0 R.tokens = true)
    (hrest : r.spot.rest = R.tokens ++ R.next :: R.others) :
    R.Before 0 r ∧ ∃ ts, R.tokens = r.current :: ts := by
  have hholds : R.Holds 0 R.tokens r :=
    ⟨hr.toSound, hr.legal, hrest, List.suffix_refl _, .inr rfl, 0, Nat.le_refl 0, hR⟩
  cases h : R.tokens with
  | nil => exact absurd h R.nonempty
  | cons t ts =>
      rw [h] at hholds
      obtain rfl := hholds.current
      exact ⟨⟨ts, hholds⟩, ts, rfl⟩

/-- Recovery from the beginning of the line ends behind it. -/
theorem behind_recovered (hr : R.tokens = r.current :: ts) (h : R.Within 0 s) :
    R.Behind (s.recovered c r.current.span.start) ∧
      R.Tally s (s.recovered c r.current.span.start) := by
  unfold Reader.recovered
  rcases h.cases with hbefore | ⟨-, hbehind⟩
  · split
    · obtain ⟨bearing, hbearing⟩ := hbefore.bearing
      have hkeeps := Keeps.advanced hbefore hbearing
      obtain ⟨hbehind, htally⟩ :=
        behind_lineSkipped (c := c) hkeeps.within hbefore.line_advanced
      exact ⟨hbehind, hkeeps.tally.trans htally⟩
    · rename_i hmoved
      have hopen : s.current.isEnd = false := hbefore.atEnd
      obtain ⟨us, hholds⟩ := hbefore
      refine behind_lineSkipped h (hholds.begun.resolve_right fun heq => hmoved ?_)
      rw [hr] at heq
      simp [← (List.cons.inj heq).1, hopen]
  · have hnot : (s.current.span.start == r.current.span.start && !s.current.isEnd) = false := by
      rw [hbehind.current]
      rcases R.apart with hend | ⟨-, hne⟩
      · simp [hend]
      · simp [(hne _ (hr ▸ List.mem_cons_self)).symm]
    rw [hnot]
    exact behind_lineSkipped h hbehind.line

/-- A statement that begins on the line takes the line and nothing else. -/
theorem behind_statement {ss : List Stmt} {n : Nat} (hd : c.delimited = false)
    (hr : R.tokens = r.current :: ts) (h : R.Before 0 r)
    (hrun : Run (recovering c (general (expression n) c)) r ss s) : R.Behind s ∧ R.Tally r s := by
  obtain ⟨whole, s', hgeneral, rfl⟩ := run_recovering.mp hrun
  have hplain : Run (single (expressionStatement (expression n) c)) r (ss, whole) s' := by
    have hopens : opensExpression r.current.kind = true := by
      cases hk : r.current.kind <;> simp_all [opensExpression, h.not_keyword]
    have hstorage : isStorage r.current.kind = false := by
      cases hk : r.current.kind <;> simp_all [isStorage, h.not_keyword]
    have hword : ∀ k, r.current.isKeyword k = false := fun k => by
      simpa [Token.isKeyword] using h.not_keyword k
    have hnone := opensFunction_of_plain (r := r) (by simp [opensPlain, hopens])
    have hplain : Run (plain (expression n) c) r (ss, whole) s' := by
      have hgeneral := run_general.mp hgeneral
      simp only [hnone.1, hnone.2, Bool.false_eq_true, if_false] at hgeneral
      split at hgeneral <;> exact hgeneral
    rwa [run_plain, if_neg (by simp [hstorage]), if_neg (by simp [hword]), if_pos hopens] at hplain
  have hends : ∀ {o s}, Run ((expression n) c loosest).run r o s → R.Ends 0 r o s := fun hx =>
    confines_expression n (by simpa using hd) h hx
  -- Behind a value the line is over, or the statement is given up there.
  have hvalue : ∀ {y s}, Yields ((expression n) c loosest) r y s → s.line = R.line := by
    intro y s hy
    obtain ⟨us, hholds⟩ := (hends (run_ok.mpr hy)).keeps.within
    refine hholds.begun.resolve_right fun heq => ?_
    -- A token has been taken, so that this is not the beginning of the line.
    have hshort := ((lawful_expression n).past h.sound hy).shorter
    obtain ⟨vs, hbegun⟩ := h
    have hlength := congrArg List.length hholds.rest
    have hlength' := congrArg List.length hbegun.rest
    have htail := hbegun.tail.length_le
    rw [heq] at hlength
    simp only [Reader.spot, List.length_append, List.length_cons, List.length_nil] at *
    omega
  rcases run_single.mp hplain with ⟨x, hx, hout⟩ | ⟨hx, hout⟩
  · obtain ⟨-, rfl⟩ := Prod.mk.inj hout
    obtain ⟨y, hy, hstops, -⟩ := yields_expressionStatement.mp hx
    have hkeeps := (hends (run_ok.mpr hy)).keeps
    rcases hkeeps.within.cases with hbefore | ⟨-, hbehind⟩
    · rw [hbefore.not_stops (hvalue hy)] at hstops
      cases hstops
    · exact ⟨hbehind, hkeeps.tally⟩
  · obtain ⟨-, rfl⟩ := Prod.mk.inj hout
    have hgiven : R.Keeps 0 r s' := by
      rcases refuses_expressionStatement.mp hx with hx | ⟨y, s, hy, hx⟩
      · exact (hends (run_error.mpr hx)).keeps
      · have hkeeps := (hends (run_ok.mpr hy)).keeps
        obtain ⟨hgoes, rfl⟩ := refuses_endOfStatement.mp hx
        rcases hkeeps.within.cases with hbefore | ⟨-, hbehind⟩
        · exact hkeeps.trans
            (.reported (f := .lineGoesOn s.current) hbefore.within hbefore.mem rfl rfl)
        · rw [hbehind.stops] at hgoes
          cases hgoes
    obtain ⟨hbehind, htally⟩ := behind_recovered (c := c) hr hgiven.within
    exact ⟨hbehind, hgiven.tally.trans htally⟩

end Row

namespace Grammar

variable {R : Row} {c : Context} {r s : Reader} {n : Token}

/-- A name alone on the line. -/
theorem exists_name (hd : c.delimited = false) (hs : s.Clear) (hn : n.kind = .identifier)
    (hline : n.endLine = R.line) (hrest : s.spot.rest = n :: R.next :: R.others) :
    ∃ s', Run (statement (expression maxDepth) c) s [.expression n (.name ⟨n⟩)] s' ∧
      s.Reaches s' ⟨R.line, R.next :: R.others⟩ := by
  have hstops : (⟨n.endLine, R.next :: R.others⟩ : Spot).stops c = true := by
    rcases R.apart with hend | ⟨hne, -⟩
    · simp [Spot.stops, hend]
    · simp [Spot.stops, hline, hne]
  have hlink : (⟨n.endLine, R.next :: R.others⟩ : Spot).link? c loosest = none := by
    rcases R.apart with hend | ⟨hne, -⟩
    · have hk : R.next.kind = .endOfInput := by simpa [Token.isEnd] using hend
      simp [Spot.link?, hk, Link.ofKind?]
    · cases hk : Link.ofKind? R.next.kind <;> simp [Spot.link?, hk, hd, hline, hne]
  have hderives : Derives false maxDepth (.statement c [.expression n (.name ⟨n⟩)])
      ⟨s.line, n :: R.next :: R.others⟩ ⟨n.endLine, R.next :: R.others⟩ :=
    .value (.expression (.name (.inl hn)) (.stop hlink)) hstops
  have hbegun : s.Reaches s ⟨s.line, n :: R.next :: R.others⟩ :=
    ⟨hs, rfl, congrArg (Spot.mk s.line) hrest⟩
  exact hline ▸ hderives.completed trivial hbegun

/-- A statement outside all expressions, alone on its line, without words of the language and
with its brackets closed, takes its line and hides nothing but itself: the reader is left as a
single name would leave it, but for the faults on the line, at most one of which is that an
expression is too deep. -/
theorem statement_row (hc : c.outermost = true) (hd : c.delimited = false)
    (hR : balances 0 R.tokens = true) (hr : r.Clear)
    (hrest : r.spot.rest = R.tokens ++ R.next :: R.others) (hs : s.Clear)
    (hn : n.kind = .identifier) (hline : n.endLine = R.line)
    (hrest' : s.spot.rest = n :: R.next :: R.others) :
    ∃ ss r' s' fs, Run (statement (expression maxDepth) c) r ss r' ∧
      Run (statement (expression maxDepth) c) s [.expression n (.name ⟨n⟩)] s' ∧
      r' = { s' with faults := r'.faults } ∧ s'.faults = s.faults ∧
      r'.faults.toList = r.faults.toList ++ fs ∧ (∀ f ∈ fs, f.marked ∈ R.tokens) ∧
      fs.countP Fault.isTooDeep ≤ 1 := by
  obtain ⟨hbefore, ts, hts⟩ := Row.before_of_clear hr hR hrest
  obtain ⟨t, hrun, hsettled⟩ :=
    run_wholeStatement.mp (run_self (statement (expression maxDepth) c) r)
  obtain ⟨hbehind, fs, hfs, hmarked, -, hcount⟩ := Row.behind_statement hd hts hbefore hrun
  obtain ⟨s', hname, hreaches⟩ := exists_name (R := R) hd hs hn hline hrest'
  have hmuted : t.settled c = { t with muted := false } := if_pos hc
  refine ⟨_, _, s', fs, run_self _ _, hname, ?_, hreaches.faults, ?_, hmarked, ?_⟩
  · have hclear : (t.settled c).Clear :=
      { toSound := (Reader.onward_settled hbehind.sound).sound
        unmuted := by rw [hmuted]
        legal := by rw [hmuted]; exact hbehind.legal }
    rw [← hsettled]
    refine hclear.eq_of_spot hreaches.clear ?_
    rw [hreaches.spot, hmuted, ← hbehind.line]
    exact congrArg (Spot.mk t.line) hbehind.rest
  · rw [← hsettled, hmuted]
    exact hfs
  · rw [hr.unmuted] at hcount
    have := Bool.toNat_le t.muted
    simp only [Bool.toNat_false, Nat.zero_add] at hcount
    omega

/-- A name denied 64 times, above a statement that does not end with its line. -/
def deepText : String := String.ofList (List.replicate 64 '!') ++ "x\ny z\n"

/-- A name as long as that line, above the same statement. -/
def nameText : String := String.ofList (List.replicate 65 'x') ++ "\ny z\n"

/-- The line that is too deep hides nothing of what stands below it. -/
theorem statement_row_denials :
    balances 0 ((TokenStream.ofText "t.prw" deepText).toList.take 65) = true ∧
      ∃ ss r' s' fs n,
        Run (statement (expression maxDepth) .file) (.ofStream (.ofText "t.prw" deepText)) ss r' ∧
        Run (statement (expression maxDepth) .file) (.ofStream (.ofText "t.prw" nameText))
          [.expression n (.name ⟨n⟩)] s' ∧
        r' = { s' with faults := r'.faults } ∧ r'.faults.toList = fs ∧
        (∀ f ∈ fs, f.marked ∈ (TokenStream.ofText "t.prw" deepText).toList.take 65) ∧
        fs.countP Fault.isTooDeep ≤ 1 := by
  have hbegun := reaches_ofStream (TokenStream.closed_ofText "t.prw" deepText) (by decide +kernel)
  have hbegun' := reaches_ofStream (TokenStream.closed_ofText "t.prw" nameText) (by decide +kernel)
  have hbalanced : balances 0 ((TokenStream.ofText "t.prw" deepText).toList.take 65) = true := by
    decide +kernel
  obtain ⟨n, next, others, hlist, hn, hline, hrest, hnext⟩ :
      ∃ n next others, (TokenStream.ofText "t.prw" nameText).toList = n :: next :: others ∧
        n.kind = .identifier ∧ n.endLine = 1 ∧
        (TokenStream.ofText "t.prw" deepText).toList =
          (TokenStream.ofText "t.prw" deepText).toList.take 65 ++ next :: others ∧
        (next.line ≠ 1 ∧ ∀ t ∈ (TokenStream.ofText "t.prw" deepText).toList.take 65,
          t.span.start ≠ next.span.start) :=
    ⟨(TokenStream.ofText "t.prw" nameText).body.headD (TokenStream.ofText "t.prw" nameText).last,
      (TokenStream.ofText "t.prw" nameText).body.tail.headD
        (TokenStream.ofText "t.prw" nameText).last,
      (TokenStream.ofText "t.prw" nameText).toList.drop 2, by decide +kernel⟩
  let R : Row :=
    { tokens := (TokenStream.ofText "t.prw" deepText).toList.take 65
      next, others
      line := 1
      nonempty := by decide +kernel
      onLine := by decide +kernel
      apart := .inr hnext }
  refine ⟨hbalanced, ?_⟩
  obtain ⟨ss, r', s', fs, hrun, hrun', heq, -, hfs, hmarked, hcount⟩ :=
    statement_row (R := R) (c := .file) rfl rfl hbalanced hbegun.clear
      (by rw [hbegun.spot]; exact hrest) hbegun'.clear hn hline
      (by rw [hbegun'.spot]; exact hlist)
  have hnone : (Reader.ofStream (.ofText "t.prw" deepText)).faults.toList = [] := by decide +kernel
  rw [hnone, List.nil_append] at hfs
  exact ⟨ss, r', s', fs, n, hrun, hrun', heq, hfs, hmarked, hcount⟩

/-- Inside a conditional the fault on the line below is not reported. -/
theorem silent_inside_branch :
    (Parsed.ofSource ("If a\n" ++ deepText ++ "EndIf\n") "t.prw").faults.map
        (fun f => (f.diagnostic.line, f.diagnostic.message)) =
      [(2, "expression is nested too deeply")] ∧
    (Parsed.ofSource ("If a\n" ++ nameText ++ "EndIf\n") "t.prw").faults.map
        (fun f => (f.diagnostic.line, f.diagnostic.message)) =
      [(3, "expected end of line, found 'z'")] := by
  decide +kernel

end Grammar

end Clipper
