import Clipper.Proofs.Depth.Deepening
import Clipper.Proofs.Faults.Complete
import Clipper.Proofs.Grammar.Completeness.Expression

/-!
Completeness for whole texts. What the grammar derives at any depth is the tree of the text,
unless the text is too deep for the reader.
-/

namespace Clipper

namespace Grammar

variable {lax : Bool} {m n : Nat} {q : Phrase} {s s' : Spot}

theorem exists_succ_of_succ_le (h : m + 1 ≤ n) : ∃ k, n = k + 1 ∧ m ≤ k := ⟨n - 1, by omega, by omega⟩

/-- What is derived at a depth is derived at every greater one. -/
theorem Derives.mono (h : Derives lax m q s s') (hle : m ≤ n) : Derives lax n q s s' := by
  induction h generalizing n with
  | expression _ _ ih ih' =>
      obtain ⟨n, rfl, hn⟩ := exists_succ_of_succ_le hle
      exact .expression (ih hn) (ih' hn)
  -- Operands
  | name ht => exact .name ht
  | integer ht hbound => exact .integer ht hbound
  | float ht hbits => exact .float ht hbits
  | string ht => exact .string ht
  | date ht => exact .date ht
  | boolean ht => exact .boolean ht
  | nil ht => exact .nil ht
  | unary ht _ ih => exact .unary ht (ih hle)
  | group ht _ hclose ih => exact .group ht (ih hle) hclose
  | array ht _ ih => exact .array ht (ih hle)
  | ownMember ht hn => exact .ownMember ht hn
  | branch ht _ _ _ hk ihg ihgs ihb => exact .branch ht (ihg hle) (ihgs hle) (ihb hle) hk
  | whileLoop hword _ hk ih => exact .whileLoop hword (ih hle) hk
  | forLoop ht hn hsign _ hmark _ _ _ hk hcounter iha ihb ihstep ihbl =>
      exact .forLoop ht hn hsign (iha hle) hmark (ihb hle) (ihstep hle) (ihbl hle) hk hcounter
  -- Links
  | stop hs => exact .stop hs
  | binary hlink _ _ ih ih' =>
      obtain ⟨n, rfl, hn⟩ := exists_succ_of_succ_le hle
      exact .binary hlink (ih hn) (ih' hn)
  | assign hlink hleft _ _ ih ih' =>
      obtain ⟨n, rfl, hn⟩ := exists_succ_of_succ_le hle
      exact .assign hlink hleft (ih hn) (ih' hn)
  | call hlink _ _ ih ih' =>
      obtain ⟨n, rfl, hn⟩ := exists_succ_of_succ_le hle
      exact .call hlink (ih hn) (ih' hn)
  | index hlink _ _ ih ih' =>
      obtain ⟨n, rfl, hn⟩ := exists_succ_of_succ_le hle
      exact .index hlink (ih hn) (ih' hn)
  | subscript ht _ _ ih ih' =>
      obtain ⟨n, rfl, hn⟩ := exists_succ_of_succ_le hle
      exact .subscript ht (ih hn) (ih' hn)
  | closeIndex ht _ ih => exact .closeIndex ht (ih hle)
  | member hlink hname _ ih =>
      obtain ⟨n, rfl, hn⟩ := exists_succ_of_succ_le hle
      exact .member hlink hname (ih hn)
  -- Lists of expressions
  | lastExpression _ hs ih => exact .lastExpression (ih hle) hs
  | moreExpressions _ ht _ ih ih' => exact .moreExpressions (ih hle) ht (ih' hle)
  | noArguments ht => exact .noArguments ht
  | arguments hs _ ht ih => exact .arguments hs (ih hle) ht
  -- Parts of conditionals and loops
  | noStep hs => exact .noStep hs
  | step ht _ ih => exact .step ht (ih hle)
  | guarded _ _ ih ih' => exact .guarded (ih hle) (ih' hle)
  | noBranches hs => exact .noBranches hs
  | branches ht _ _ ih ih' => exact .branches ht (ih hle) (ih' hle)
  | noAlternative hs => exact .noAlternative hs
  | alternative ht _ ih => exact .alternative ht (ih hle)
  -- Statements
  | block _ ih => exact .block (ih hle)
  | noStatements hs => exact .noStatements hs
  | statements hs _ _ ih ih' => exact .statements hs (ih hle) (ih' hle)
  | variableList ht _ hs ih => exact .variableList ht (ih hle) hs
  | returnNothing ht hs => exact .returnNothing ht hs
  | returnValue ht hs _ hs' ih => exact .returnValue ht hs (ih hle) hs'
  | value _ hs ih => exact .value (ih hle) hs
  | function hc ht _ ih => exact .function hc ht (ih hle)
  | staticFunction hc ht hf _ ih => exact .staticFunction hc ht hf (ih hle)
  | classDef hc ht hn hparent _ hk ih => exact .classDef hc ht hn hparent (ih hle) hk
  -- Parts of declarations
  | declared hn hs => exact .declared hn hs
  | initialized hn hsign _ ih => exact .initialized hn hsign (ih hle)
  | lastDeclarator _ hs ih => exact .lastDeclarator (ih hle) hs
  | moreDeclarators _ ht _ ih ih' => exact .moreDeclarators (ih hle) ht (ih' hle)
  | routine hn hps _ hc ih => exact .routine hn hps (ih hle) hc
  | noMembers hs => exact .noMembers hs
  | members _ _ ih ih' => exact .members (ih hle) (ih' hle)
  | attributes ht hns hs => exact .attributes ht hns hs
  | method ht _ ih => exact .method ht (ih hle)

/-! ### Texts -/

variable {t : TokenStream} {ss : List Stmt} {l : Nat}

/-- At the beginning of a text without illegal characters. -/
theorem reaches_ofStream (ht : t.Closed) (hlegal : ∀ u ∈ t.body, u.isIllegal = false) :
    (Reader.ofStream t).Reaches (.ofStream t) ⟨1, t.toList⟩ where
  clear :=
    { toSound := Reader.sound_ofStream ht
      unmuted := rfl
      legal := fun u hu => hlegal u <|
        (List.dropWhile_suffix _).subset (List.mem_of_mem_tail
          ((List.dropWhile_suffix _).subset (List.mem_of_mem_tail hu))) }
  faults := rfl
  spot := by
    have hbody : (t.body.filter fun u => !u.isIllegal) = t.body :=
      List.filter_eq_self.mpr fun u hu => by simp [hlegal u hu]
    rw [Reader.spot, Reader.pending_ofStream ht, hbody]
    rfl

/-- Nothing is found in front of a text without illegal characters. -/
theorem faults_ofStream_eq_nil (hlegal : ∀ u ∈ t.body, u.isIllegal = false) :
    (Reader.ofStream t).faults.toList = [] := by
  have hnone : (t.body.filter Token.isIllegal) = [] :=
    List.filter_eq_nil_iff.mpr fun u hu => by simp [hlegal u hu]
  have hillegals := (Reader.illegals_ofStream (s := t)).trans hnone
  have hfaults := Reader.faults_ofStream (s := t)
  rw [List.eq_nil_iff_forall_not_mem]
  intro f hf
  have hillegal := List.filterMap_eq_nil_iff.mp (List.append_eq_nil_iff.mp hillegals).1 f hf
  exact List.filter_eq_nil_iff.mp hfaults f hf (by simp [hillegal])

theorem more_file :
    (fun r : Reader => !r.atEnd && !r.atAny Context.file.closers) = (!·.atEnd) := by
  funext r
  have hnone : r.atAny Context.file.closers = false := by
    cases hk : r.current.kind.keyword? <;> simp [Reader.atAny, Context.file, hk]
  rw [hnone, Bool.not_false, Bool.and_true]

/-- With a bound that is high enough the statements are read without a fault. With the bound
that there is, this is done as well, or an expression proves too deep. -/
theorem parsed_of_derives (ht : t.Closed) (hlegal : ∀ u ∈ t.body, u.isIllegal = false)
    (h : Derives false m (.statements .file ss) ⟨1, t.toList⟩ ⟨l, [t.last]⟩) :
    (Parsed.ofStream t).TooDeep ∨
      (Parsed.ofStream t).faults = [] ∧ (Parsed.ofStream t).program.statements = ss := by
  have hbegun := reaches_ofStream ht hlegal
  obtain ⟨r', hrun, hr'⟩ := h.completed trivial hbegun
  rw [more_file] at hrun
  have hclean : r'.faults.toList = [] := by
    rw [hr'.faults]
    exact faults_ofStream_eq_nil hlegal
  obtain ⟨r, hreads, hfaults⟩ := exists_reads ht
  have hread : Run (repeated (!·.atEnd) (statement (expression maxDepth) .file)) (.ofStream t)
      (Parsed.ofStream t).program.statements r :=
    (run_repeated past_topStatement hbegun.sound).mpr hreads.statements
  -- The bound that there is and the one of the derivation, whichever is higher.
  have hsame : (Parsed.ofStream t).TooDeep ∨
      Run (repeated (!·.atEnd) (statement (expression maxDepth) .file)) (.ofStream t) ss r' := by
    by_cases hdeep : (Parsed.ofStream t).TooDeep
    · exact .inl hdeep
    refine .inr ?_
    rcases Nat.le_total m maxDepth with hle | hle
    · refine (Deepens.repeated (deepens_statement (deepens_expression hle))).same hbegun.sound hrun ?_
      rintro ⟨u, hu⟩
      simpa [hclean] using Array.mem_toList_iff.mpr hu
    · have hshallow : ¬r.TooDeep := fun ⟨u, hu⟩ =>
        hdeep ⟨u, hfaults ▸ Array.mem_toList_iff.mpr hu⟩
      have hhigh := (Deepens.repeated (deepens_statement (deepens_expression hle))).same
        hbegun.sound hread hshallow
      obtain ⟨rfl, rfl⟩ := hhigh.unique hrun
      exact hread
  refine hsame.imp id fun hrun => ?_
  obtain ⟨hss, rfl⟩ := hread.unique hrun
  exact ⟨hfaults.trans hclean, hss⟩

/-- In the depth that there is the statements are read, and all that is found are names behind
the ends of loops. -/
theorem parsed_of_lax {last : Token} (ht : t.Closed) (hlegal : ∀ u ∈ t.body, u.isIllegal = false)
    (hend : last.isEnd = true)
    (h : Derives lax maxDepth (.statements .file ss) ⟨1, t.toList⟩ ⟨l, [last]⟩) :
    (Parsed.ofStream t).faults = recounts [] t.toList ∧
      (Parsed.ofStream t).program.statements = ss := by
  have hbegun := reaches_ofStream ht hlegal
  obtain ⟨ws, hcount, hread⟩ := h.warned trivial
  obtain ⟨r', hrun, hr'⟩ := hread hbegun
  rw [more_file] at hrun
  obtain ⟨r, hreads, hfaults⟩ := exists_reads ht
  have hsame : Run (repeated (!·.atEnd) (statement (expression maxDepth) .file)) (.ofStream t)
      (Parsed.ofStream t).program.statements r :=
    (run_repeated past_topStatement hbegun.sound).mpr hreads.statements
  obtain ⟨hss, rfl⟩ := hsame.unique hrun
  refine ⟨?_, hss⟩
  have hws : recounts [] t.toList = ws := by
    rw [hcount.recounts, recounts_end hend, List.append_nil]
  rw [hfaults, hr'.faults, hws]
  simp [Reader.warned, faults_ofStream_eq_nil hlegal]

/-- A text of one expression has one statement. -/
theorem Derives.statement {x : Expr} {u : Token} {us : List Token} (ht : t.Closed)
    (hbody : t.body = u :: us)
    (h : Derives lax m (.expression .file loosest x) ⟨1, t.toList⟩ ⟨l, [t.last]⟩) :
    Derives lax m (.statements .file [.expression u x]) ⟨1, t.toList⟩ ⟨l, [t.last]⟩ := by
  have hlist : t.toList = u :: (us ++ [t.last]) := by rw [TokenStream.toList, hbody]; rfl
  have hu : u.isEnd = false := ht.body_open u (hbody ▸ List.mem_cons_self)
  have hany : ∀ v : Token, v.isAny Context.file.closers = false := fun v => by
    cases hk : v.kind.keyword? <;> simp [Token.isAny, Context.file, hk]
  rw [hlist] at h ⊢
  have hvalue : Derives lax m (.statement .file [.expression u x]) ⟨1, u :: (us ++ [t.last])⟩
      ⟨l, [t.last]⟩ := .value h (by simp [Spot.stops, ht.last_isEnd])
  have hnothing : Derives lax m (.statements .file []) ⟨l, [t.last]⟩ ⟨l, [t.last]⟩ :=
    .noStatements (by simp [Spot.blockEnds, ht.last_isEnd])
  have hgoes : (⟨1, u :: (us ++ [t.last])⟩ : Spot).blockEnds .file = false := by
    simp [Spot.blockEnds, hu, hany]
  have hboth := Derives.statements hgoes hvalue hnothing
  rwa [List.append_nil] at hboth

/-- A text of one expression. -/
theorem parsed_of_expression {x : Expr} {u : Token} {us : List Token} (ht : t.Closed)
    (hlegal : ∀ u ∈ t.body, u.isIllegal = false) (hbody : t.body = u :: us)
    (h : Derives false m (.expression .file loosest x) ⟨1, t.toList⟩ ⟨l, [t.last]⟩) :
    (Parsed.ofStream t).TooDeep ∨
      (Parsed.ofStream t).faults = [] ∧
        (Parsed.ofStream t).program.statements = [.expression u x] :=
  parsed_of_derives ht hlegal (h.statement ht hbody)

end Grammar

end Clipper
