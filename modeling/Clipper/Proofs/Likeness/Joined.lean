import Clipper.Proofs.Grammar.Completeness.Program
import Clipper.Proofs.Grammar.Sequel
import Clipper.Proofs.Lexing.Lines
import Clipper.Proofs.Likeness.Seam

/-!
Two texts without faults, one below the other. Nothing that begins on a line of its own goes on
with what stands above it, unless the text above ends in a function without its closing word. So
the statements of the first are read as in the first alone, and from there on the second is read as
if it stood alone.
-/

namespace Clipper

open Correspondence Grammar

/-! ### The text above -/

namespace Sequel

variable {S : Sequel} {l l' : Nat}

/-- A sequel on a later line than every token above it. -/
theorem spots {ts : List Token} (hts : ∀ t ∈ ts, t.isEnd = false ∧ t.endLine < S.next.line)
    (hl : l < S.next.line) : S.Spots ⟨l, ts ++ [S.last]⟩ ⟨l, ts ++ S.next :: S.others⟩ := by
  induction ts generalizing l with
  | nil => exact .here hl
  | cons t ts ih =>
      rw [List.forall_mem_cons] at hts
      exact .step hts.1.1 (ih hts.2 hts.1.2)

/-- At the end of the text above the sequel comes next. -/
theorem Spots.arrived {s' : Spot} (h : S.Spots ⟨l, [S.last]⟩ s') :
    s' = ⟨l, S.next :: S.others⟩ := by
  cases h with
  | here _ => rfl
  | step hopen _ => simp [S.last_isEnd] at hopen

end Sequel

namespace Grammar

variable {S : Sequel} {s s' w : Spot} {c : Context} {m l : Nat} {lax : Bool} {t : Token}
  {u : List Token} {ss : List Stmt}

theorem Derives.nothing (h : Derives lax m (.statements c ss) s s') (hs : s.atEnd = true) :
    ss = [] := by
  cases h with
  | noStatements _ => rfl
  | statements hgoes _ _ =>
      obtain ⟨l, rest⟩ := s
      cases rest <;> simp_all [Spot.atEnd, Spot.next, Spot.blockEnds]

/-- The statements of a text without faults are read the same above a sequel. -/
theorem rounds_of_derives (h : Derives false m (.statements .file ss) s s')
    (hend : s'.atEnd = true) (hlast : ∀ x ∈ ss.getLast?, x.isOpen = false) (hw : S.Spots s w) :
    ∃ w', S.Spots s' w' ∧ ∀ ⦃r₀ r r' : Reader⦄ ⦃us : List Stmt⦄, r₀.Reaches r w →
      Repeats (!·.atEnd) (statement (expression m) .file) r us r' →
        ∃ r₁ us', us = ss ++ us' ∧ r₀.Reaches r₁ w' ∧
          Repeats (!·.atEnd) (statement (expression m) .file) r₁ us' r' := by
  generalize hq : Phrase.statements .file ss = q at h
  induction h generalizing ss w with
  | noStatements _ =>
      cases hq
      exact ⟨w, hw, fun r₀ r r' us hr hus => ⟨r, us, rfl, hr, hus⟩⟩
  | @statements _ _ ss _ _ ss' _ hgoes hx hss _ ih =>
      cases hq
      -- Where one statement ends with the text it is the last one.
      obtain ⟨w₁, hw₁, hx⟩ := hx.followed hw fun h => by
        rw [hss.nothing h, List.append_nil] at hlast
        exact ⟨rfl, hlast⟩
      have hlast' : ∀ x ∈ ss'.getLast?, x.isOpen = false := fun x hx =>
        hlast x (by rw [List.getLast?_append, Option.mem_def.mp hx]; rfl)
      obtain ⟨w₂, hw₂, hrest⟩ := ih hend hlast' hw₁ rfl
      refine ⟨w₂, hw₂, fun r₀ r r' us hr hus => ?_⟩
      have hopen : r.atEnd = false := by
        have hblock := hr.blockEnds (c := .file)
        rw [hw.goesOn hgoes, Bool.or_eq_false_iff] at hblock
        exact hblock.1
      obtain ⟨r₁, hrun, hr₁⟩ := hx.completed trivial hr
      cases hus with
      | stop hm => simp [hopen] at hm
      | round _ hrun' hus =>
          obtain ⟨rfl, rfl⟩ := hrun.unique hrun'
          obtain ⟨r₂, us', rfl, hr₂, hus⟩ := hrest hr₁ hus
          exact ⟨r₂, us', (List.append_assoc ..).symm, hr₂, hus⟩
  | _ => cases hq

end Grammar

/-! ### Both texts -/

namespace Parsed

variable {source file p q : String}

/-- A text without faults has no illegal characters. -/
theorem legal_of_clean (h : (ofSource source file).faults = []) :
    ∀ t ∈ (TokenStream.ofText file source).body, t.isIllegal = false := by
  obtain ⟨r, hreads, hfaults⟩ := exists_reads (TokenStream.closed_ofText file source)
  have hillegals := hreads.illegals
  have hnone : r.faults.toList = [] := hfaults.symm.trans h
  rw [hnone, List.filterMap_nil, eq_comm, List.filter_eq_nil_iff] at hillegals
  exact fun t ht => Bool.eq_false_iff.mpr (hillegals t ht)

theorem faults_of_diagnostics (h : (ofSource source file).diagnostics = []) :
    (ofSource source file).faults = [] := List.map_eq_nil_iff.mp h

/-- Where nothing is found and no character is illegal, there is no fault. -/
theorem clean_of_found {s : TokenStream} {ss : List Stmt} {r : Reader} (h : Reads s ss r)
    (hlegal : ∀ t ∈ s.body, t.isIllegal = false) (hfound : r.found = []) :
    r.faults.toList = [] := by
  have hnone : s.body.filter Token.isIllegal = [] :=
    List.filter_eq_nil_iff.mpr fun t ht => by simp [hlegal t ht]
  have hillegals := List.filterMap_eq_nil_iff.mp (h.illegals.trans hnone)
  refine List.eq_nil_iff_forall_not_mem.mpr fun f hf => ?_
  exact List.filter_eq_nil_iff.mp hfound f hf (by simp [hillegals f hf])

/-- Further on the tokens of a text keep their order. -/
theorem ordered_of_spot {r : Reader} {cs : List Char}
    (h : r.spot.rest = ((TokenStream.ofText file q).legal ++
      [(TokenStream.ofText file q).last]).map (Token.behind cs)) :
    r.pending.Pairwise fun t u => t.span.start < u.span.start := by
  have hpending : r.pending = (TokenStream.ofText file q).legal.map (Token.behind cs) := by
    have hrest : r.pending ++ [r.last] = _ := h
    rw [List.map_append, List.map_singleton] at hrest
    exact List.append_inj_left' hrest rfl
  rw [hpending, List.pairwise_map]
  exact ((TokenStream.ofText_ordered file q).filter _).imp fun hlt => Nat.add_lt_add_left hlt _

theorem derives_of_clean (hclean : (ofSource p file).faults = []) :
    ∃ l, Derives false maxDepth (.statements .file (ofSource p file).program.statements)
      ⟨1, (TokenStream.ofText file p).toList⟩ ⟨l, [(TokenStream.ofText file p).last]⟩ :=
  derives_program (TokenStream.closed_ofText file p) fun f hf => by
    rw [show (ofStream (.ofText file p)).faults = [] from hclean] at hf
    cases hf

/-- What stands below a text. -/
theorem exists_sequel (hq : (ofSource q file).faults = []) :
    ∃ (S : Sequel), S.last = (TokenStream.ofText file p).last ∧
      S.next :: S.others =
        (TokenStream.ofText file q).toList.map (Token.behind (p ++ "\n").toList) ∧
      1 + p.toList.count '\n' < S.next.line := by
  have hs := TokenStream.closed_ofText file p
  have hs' := TokenStream.closed_ofText file q
  obtain ⟨l, hq⟩ := derives_of_clean hq
  have hlines : (p ++ "\n").toList.count '\n' = p.toList.count '\n' + 1 := by simp
  cases hlist : (TokenStream.ofText file q).toList with
  | nil => simp [TokenStream.toList] at hlist
  | cons t ts =>
      rw [hlist] at hq
      obtain ⟨hcomma, -, hsign⟩ := hq.starts
      refine ⟨⟨_, t.behind (p ++ "\n").toList, ts.map (Token.behind (p ++ "\n").toList),
        hs.last_isEnd, hcomma, hsign⟩, rfl, rfl, ?_⟩
      have hone := TokenStream.one_le_line file q t (hlist ▸ List.mem_cons_self)
      show _ < (p ++ "\n").toList.count '\n' + t.line
      omega

theorem legal_of_line (hp : EndsOutside file p) (hclean : (ofSource p file).faults = [])
    (hclean' : (ofSource q file).faults = []) :
    ∀ t ∈ (TokenStream.ofText file (p ++ "\n" ++ q)).body, t.isIllegal = false := by
  rw [TokenStream.ofText_line hp]
  refine List.forall_mem_append.mpr ⟨legal_of_clean hclean, ?_⟩
  exact List.forall_mem_map.mpr (legal_of_clean hclean')

theorem toList_line (p : String) : (p ++ "\n").toList = p.toList ++ ['\n'] := by simp

/-- The statements of the text above come first, and behind them the text below is to be read. -/
theorem exists_above (hp : EndsOutside file p) (hclean : (ofSource p file).faults = [])
    (hclean' : (ofSource q file).faults = [])
    (hlast : ∀ x ∈ (ofSource p file).program.statements.getLast?, x.isOpen = false)
    {ss : List Stmt} {r : Reader} (h : Reads (.ofText file (p ++ "\n" ++ q)) ss r) :
    ∃ t us, ss = (ofSource p file).program.statements ++ us ∧ t.Clear ∧ t.found = [] ∧
      t.spot.rest = ((TokenStream.ofText file q).legal ++
        [(TokenStream.ofText file q).last]).map (Token.behind (p ++ "\n").toList) ∧
      Repeats (!·.atEnd) (statement (expression maxDepth) .file) t us r := by
  have hs := TokenStream.closed_ofText file p
  obtain ⟨S, hend, hnext, hbelow⟩ := exists_sequel (p := p) hclean'
  obtain ⟨l, hderives⟩ := derives_of_clean hclean
  have hspots : S.Spots ⟨1, (TokenStream.ofText file p).toList⟩
      ⟨1, (TokenStream.ofText file (p ++ "\n" ++ q)).toList⟩ := by
    have hlist : (TokenStream.ofText file (p ++ "\n" ++ q)).toList =
        (TokenStream.ofText file p).body ++ S.next :: S.others := by
      rw [hnext, TokenStream.ofText_line hp, toList_line, TokenStream.toList, TokenStream.toList,
        List.append_assoc, List.map_append]
      rfl
    rw [hlist, TokenStream.toList, ← hend]
    refine Sequel.spots (fun t ht => ⟨hs.body_open t ht, ?_⟩) (by omega)
    exact Nat.lt_of_le_of_lt (TokenStream.endLine_le file p t ht) hbelow
  have hatEnd : (⟨l, [(TokenStream.ofText file p).last]⟩ : Spot).atEnd = true :=
    atEnd_cons.trans hs.last_isEnd
  obtain ⟨w, hw, hrounds⟩ := rounds_of_derives hderives hatEnd hlast hspots
  have hbegun := reaches_ofStream (TokenStream.closed_ofText file (p ++ "\n" ++ q))
    (legal_of_line hp hclean hclean')
  obtain ⟨t, us, hus, ht, hrest⟩ := hrounds hbegun h.statements
  rw [← hend] at hw
  obtain rfl := hw.arrived
  have hlegal : (TokenStream.ofText file q).legal = (TokenStream.ofText file q).body :=
    List.filter_eq_self.mpr fun t ht => by simp [legal_of_clean hclean' t ht]
  refine ⟨t, us, hus, ht.clear, ?_, ?_, hrest⟩
  · rw [Reader.found, ht.faults]
    exact Reader.faults_ofStream
  · rw [ht.spot, hlegal]
    exact hnext

/-- Two texts without faults make one without faults, with the statements of both. Those of the
second are further on by the first and the line end behind it. -/
theorem statements_line (hp : EndsOutside file p) (hclean : (ofSource p file).diagnostics = [])
    (hclean' : (ofSource q file).diagnostics = [])
    (hlast : ∀ x ∈ (ofSource p file).program.statements.getLast?, x.isOpen = false) :
    (ofSource (p ++ "\n" ++ q) file).diagnostics = [] ∧
      (ofSource (p ++ "\n" ++ q) file).program.statements =
        (ofSource p file).program.statements ++
          (Relabelling.all (Token.moved (p.utf8ByteSize + 1) (p.toList.count '\n' + 1))).stmts
            (ofSource q file).program.statements := by
  have hfaults := faults_of_diagnostics hclean
  have hfaults' := faults_of_diagnostics hclean'
  obtain ⟨r, hreads, hr⟩ := exists_reads (TokenStream.closed_ofText file (p ++ "\n" ++ q))
  obtain ⟨r', hreads', hr'⟩ := exists_reads (TokenStream.closed_ofText file q)
  obtain ⟨t, us, hus, ht, hbefore, hbehind, hrest⟩ := exists_above hp hfaults hfaults' hlast hreads
  obtain ⟨l, hback⟩ :=
    readers_back ht.toSound ht.unmuted (ordered_of_spot hbehind) hbehind
  -- On whatever line a text begins, it is read the same.
  obtain ⟨s, hsame, hbegun⟩ := hreads'.statements.line l
  obtain ⟨halike, hend⟩ := hbegun.alike_end hback trivial (fun h => h.1 ▸ h.2) hrest
  refine ⟨?_, ?_⟩
  · obtain ⟨xs, xs', hxs, hxs', hsimilar⟩ := hend.found
    have hnone : s.found = [] := by
      rw [Reader.found, hsame, ← hr', show (ofStream (.ofText file q)).faults = [] from hfaults']
      rfl
    obtain rfl : xs = [] := (hnone.symm.trans hxs).symm
    cases hsimilar
    have hfound : r.found = [] := hxs'.trans (by rw [hbefore]; rfl)
    have hlegal := legal_of_line hp hfaults hfaults'
    rw [diagnostics, ofSource, hr, clean_of_found hreads hlegal hfound]
    rfl
  · have hstatements := (relabels_back _ _).statements_eq (statements_of_forall₂ halike)
    rw [toList_line, Token.behind_line] at hstatements
    exact hus.trans (congrArg _ hstatements.symm)

/-- A comment stands in front of the line end, and a sum is broken behind it. -/
theorem statements_line_comment :
    EndsOutside "t.prw" "Local x, y := 1 // ,\nReturn" ∧
      (ofSource "Local x, y := 1 // ,\nReturn" "t.prw").diagnostics = [] ∧
      (ofSource "(x\n+ y)" "t.prw").diagnostics = [] ∧
      (ofSource ("Local x, y := 1 // ,\nReturn" ++ "\n" ++ "(x\n+ y)") "t.prw").diagnostics = [] ∧
      (ofSource ("Local x, y := 1 // ,\nReturn" ++ "\n" ++ "(x\n+ y)")
          "t.prw").program.statements =
        (ofSource "Local x, y := 1 // ,\nReturn" "t.prw").program.statements ++
          (Relabelling.all (Token.moved 28 2)).stmts
            (ofSource "(x\n+ y)" "t.prw").program.statements := by
  have hp : EndsOutside "t.prw" "Local x, y := 1 // ,\nReturn" :=
    ⟨by decide +kernel, by decide +kernel⟩
  have hclean : (ofSource "Local x, y := 1 // ,\nReturn" "t.prw").diagnostics = [] := by
    decide +kernel
  have hclean' : (ofSource "(x\n+ y)" "t.prw").diagnostics = [] := by decide +kernel
  have hsize : "Local x, y := 1 // ,\nReturn".utf8ByteSize = 27 := by decide
  have hline := statements_line hp hclean hclean' (by decide +kernel)
  rw [hsize] at hline
  exact ⟨hp, hclean, hclean', hline⟩

end Parsed

end Clipper
