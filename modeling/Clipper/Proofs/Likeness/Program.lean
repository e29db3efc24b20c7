import Clipper.Proofs.Likeness.Expression
import Clipper.Proofs.Likeness.Names
import Clipper.Proofs.Reading.FirstToken

/-!
Whole texts side by side. The statements of the first text are read alike in the second,
if no conditional or loop is left open outside all routines where the first text ends.
-/

namespace Clipper

namespace Grammar

/-- Reading statements at file level from the first reader on, one of them begins at the
second. -/
inductive Arrives : Reader → Reader → Prop
  | here (r : Reader) : Arrives r r
  | there : r.atEnd = false → Run (statement (expression maxDepth) .file) r ss s →
      Arrives s t → Arrives r t

/-- A conditional or a loop outside all routines is open where the text ends. -/
def LeavesOpen (r : Reader) : Prop :=
  ∃ t, Arrives r t ∧ t.atEnd = false ∧ LeftOpen (.plain maxDepth .file) t

variable {K : Correspondence} {r r' s s' t : Reader} {ss ss' : List Stmt}

theorem Repeats.alike (hr : K.Readers r r') (hshut : K.guards [] ∨ ¬LeavesOpen r)
    (h : Repeats (!·.atEnd) (statement (expression maxDepth) .file) r ss s)
    (h' : Repeats (!·.atEnd) (statement (expression maxDepth) .file) r' ss' s') :
    ∃ us us' t, ss' = us ++ us' ∧ List.Forall₂ (K.Stmts false) ss us ∧ K.Readers s t ∧
      Repeats (!·.atEnd) (statement (expression maxDepth) .file) t us' s' := by
  induction h generalizing r' ss' with
  | stop => exact ⟨[], ss', r', rfl, .nil, hr, h'⟩
  | @round r t s xs ys hm hx _ ih =>
      have hopen : r.atEnd = false := by simpa using hm
      cases h' with
      | stop hm' => simp [(hr.steps hopen).atEnd'] at hm'
      | @round _ t' _ xs' ys' _ hx' hrest' =>
          have hshut' : Shut K .file (.plain maxDepth .file) r :=
            hshut.imp id fun hleft h => hleft ⟨r, .here r, hopen, h⟩
          obtain ⟨hxs, ht⟩ := (concur_statement (P := True) (compares_expression maxDepth)).alike
            trivial hr ⟨hopen, hshut'⟩ hx hx' (.inl trivial)
          obtain ⟨us, us', v, rfl, hus, hv, hrest⟩ := ih ht
            (hshut.imp id fun hleft ⟨v, ha, hv⟩ => hleft ⟨v, .there hopen hx ha, hv⟩) hrest'
          exact ⟨xs' ++ us, us', v, by rw [List.append_assoc], List.rel_append hxs hus, hv, hrest⟩

/-- Where both texts end together the second one has no further statements. -/
theorem Repeats.alike_end (hr : K.Readers r r') (hguards : K.guards [])
    (hends : ∀ {t u}, K.ending t u → u.isEnd = true)
    (h : Repeats (!·.atEnd) (statement (expression maxDepth) .file) r ss s)
    (h' : Repeats (!·.atEnd) (statement (expression maxDepth) .file) r' ss' s') :
    List.Forall₂ (K.Stmts false) ss ss' ∧ K.Readers s s' := by
  obtain ⟨us, us', t, rfl, hus, ht, hrest⟩ := h.alike hr (.inl hguards) h'
  have hend : s.atEnd = true := by simpa using h.stopped
  have hend' : t.atEnd = true := hends (ht.ends hend).ending
  cases hrest with
  | stop => exact ⟨by simpa using hus, ht⟩
  | round hm => simp [hend'] at hm

end Grammar

namespace TokenStream

/-- The tokens that are neither illegal nor the end. -/
def legal (s : TokenStream) : List Token := s.body.filter fun t => !t.isIllegal

theorem mem_body_of_legal {s : TokenStream} {t : Token} (h : t ∈ s.legal) : t ∈ s.body :=
  List.mem_of_mem_filter h

theorem ofText_ordered (file source : String) :
    (ofText file source).body.Pairwise fun t u => t.span.start < u.span.start :=
  (List.pairwise_append.mp (ofText_pairwise file source)).1.imp Place.Before.offset_lt

end TokenStream

namespace Correspondence

variable {K : Correspondence} {s s' : TokenStream} {l : Nat}

/-- Which of some tokens begin on the line where the one before them ends, the first of them
behind line `l`. -/
def lines (l : Nat) : List Token → List Bool
  | [] => []
  | t :: ts => (t.line == l) :: lines t.endLine ts

/-- For each token but the first, whether it begins on the line where the one before ends. -/
def joints (ts : List Token) : List Bool := ts.zipWith (fun t u => u.line == t.endLine) ts.tail

theorem lines_tail (l : Nat) (ts : List Token) : (lines l ts).tail = joints ts := by
  induction ts generalizing l with
  | nil => rfl
  | cons t ts ih =>
      cases ts with
      | nil => rfl
      | cons u us =>
          have := ih t.endLine
          simp_all [lines, joints]

/-- A line on which the second text can begin for both to begin alike. -/
theorem exists_lines_eq (l : Nat) {ts us : List Token} (hlength : ts.length = us.length)
    (h : joints ts = joints us) : ∃ l', lines l ts = lines l' us := by
  cases ts with
  | nil =>
      cases us with
      | nil => exact ⟨1, rfl⟩
      | cons => cases hlength
  | cons t ts =>
      cases us with
      | nil => cases hlength
      | cons u us =>
          refine ⟨if t.line == l then u.line else u.line + 1, ?_⟩
          rw [← lines_tail l, ← lines_tail l (u :: us)] at h
          refine congrArg₂ List.cons ?_ h
          split <;> simp_all

theorem Readers.found_alike {r r' : Reader} (h : K.Readers r r') (hearlier : K.earlier = [])
    (hearlier' : K.earlier' = []) : List.Forall₂ K.Faults r.found r'.found := by
  obtain ⟨xs, xs', hxs, hxs', halike⟩ := h.found
  rwa [hxs, hxs', hearlier, hearlier', List.nil_append, List.nil_append]

/-- Tokens that correspond and break their lines alike make up spots that do. -/
theorem spots_of_lines {ts us vs : List Token} {t u : Token} {l' : Nat}
    (h : List.Forall₂ K.token ts us) (hlines : lines l ts = lines l' us) (hend : K.ending t u)
    (hapart : u.isEnd = true ∨ u.line ≠ (us.getLast?.elim l' Token.endLine))
    (hstatic : u.isKeyword .kwFunction = true → ts.getLast?.any (·.isKeyword .kwStatic) = false)
    (hbeyond : vs = K.beyond) : K.Spots ⟨l, ts ++ [t]⟩ ⟨l', us ++ u :: vs⟩ := by
  induction h generalizing l l' with
  | nil => exact .ended hend hapart hbeyond
  | @cons a b as bs hab has ih =>
      obtain ⟨hline, hrest⟩ := List.cons.inj hlines
      refine .step hab hline (fun hs => ?_) (ih hrest ?_ fun hf => ?_)
      · cases has with
        | nil =>
            have ht : t.isKeyword .kwFunction = false := by
              have := K.isEnd_ending hend
              simp_all [Token.isEnd, Token.isKeyword]
            cases hf : u.isKeyword .kwFunction with
            | false => simp [ht, hf]
            | true => simp_all
        | cons hcd _ => simp [Token.isKeyword, K.kind_eq hcd]
      · refine hapart.imp id fun hne => ?_
        cases bs <;> simpa [List.getLast?_cons] using hne
      · have := hstatic hf
        cases as <;> simp_all [List.getLast?_cons]

theorem spot_ofStream (hs : s.Closed) (l : Nat) :
    { Reader.ofStream s with line := l }.spot = ⟨l, s.legal ++ [s.last]⟩ := by
  rw [Reader.spot]
  exact congrArg (fun ts => Spot.mk l (ts ++ [s.last])) (Reader.pending_ofStream hs)

theorem ordered_ofStream (hs : s.Closed)
    (ho : s.body.Pairwise fun t u => t.span.start < u.span.start) (l : Nat) :
    { Reader.ofStream s with line := l }.pending.Pairwise fun (t u : Token) =>
      t.span.start < u.span.start := by
  have hpending : { Reader.ofStream s with line := l }.pending = s.legal :=
    Reader.pending_ofStream hs
  rw [hpending]
  exact ho.filter _

/-- Reading begins alike where the tokens of two texts correspond. -/
theorem readers_ofStream (hs : s.Closed) (hs' : s'.Closed)
    (ho : s.body.Pairwise fun t u => t.span.start < u.span.start)
    (ho' : s'.body.Pairwise fun t u => t.span.start < u.span.start)
    (hearlier : K.earlier = [] ∧ K.earlier' = [])
    (h : K.Spots ⟨1, s.legal ++ [s.last]⟩ ⟨l, s'.legal ++ [s'.last]⟩) :
    K.Readers (.ofStream s) { Reader.ofStream s' with line := l } where
  sound := Reader.sound_ofStream hs
  sound' := { Reader.sound_ofStream hs' with }
  spots := by
    rw [spot_ofStream hs']
    exact spot_ofStream hs 1 ▸ h
  muted := rfl
  found := ⟨[], [], by rw [hearlier.1]; exact Reader.faults_ofStream,
    by rw [hearlier.2]; exact Reader.faults_ofStream, .nil⟩
  ordered := ordered_ofStream hs ho 1
  ordered' := ordered_ofStream hs' ho' l

end Correspondence

/-- Texts whose tokens correspond, with the same line breaks behind the first of them, are read to
trees that are alike, and the same is wrong with them but for illegal characters. -/
theorem Parsed.alike {K : Correspondence} {source source' file : String} (hguards : K.guards [])
    (hends : ∀ {t u}, K.ending t u → u.isEnd = true) (hbeyond : K.beyond = [])
    (hearlier : K.earlier = [] ∧ K.earlier' = [])
    (h : List.Forall₂ K.token (TokenStream.ofText file source).legal
      (TokenStream.ofText file source').legal)
    (hjoints : Correspondence.joints (TokenStream.ofText file source).legal =
      Correspondence.joints (TokenStream.ofText file source').legal)
    (hlast : K.ending (TokenStream.ofText file source).last
      (TokenStream.ofText file source').last) :
    List.Forall₂ (K.Stmts false) (Parsed.ofSource source file).program.statements
        (Parsed.ofSource source' file).program.statements ∧
      List.Forall₂ K.Faults
        ((Parsed.ofSource source file).faults.filter (·.illegal?.isNone))
        ((Parsed.ofSource source' file).faults.filter (·.illegal?.isNone)) := by
  have hs := TokenStream.closed_ofText file source
  have hs' := TokenStream.closed_ofText file source'
  obtain ⟨l, hlines⟩ := Correspondence.exists_lines_eq 1 h.length_eq hjoints
  have hspots : K.Spots ⟨1, (TokenStream.ofText file source).legal ++ [_]⟩
      ⟨l, (TokenStream.ofText file source').legal ++ [_]⟩ :=
    Correspondence.spots_of_lines h hlines hlast (.inl hs'.last_isEnd) (fun hf => by
        have := hs'.last_isEnd
        simp_all [Token.isEnd, Token.isKeyword]) hbeyond.symm
  have hr := Correspondence.readers_ofStream hs hs' (TokenStream.ofText_ordered file source)
    (TokenStream.ofText_ordered file source') hearlier hspots
  obtain ⟨r, hreads, hfaults⟩ := Grammar.exists_reads hs
  obtain ⟨r', hreads', hfaults'⟩ := Grammar.exists_reads hs'
  obtain ⟨r'', hsame, hbegun⟩ := hreads'.statements.line l
  obtain ⟨halike, hend⟩ := hreads.statements.alike_end hr hguards hends hbegun
  have hfound := hend.found_alike hearlier.1 hearlier.2
  rw [Reader.found, Reader.found, hsame, ← hfaults, ← hfaults'] at hfound
  exact ⟨halike, hfound⟩

namespace Correspondence

/-! ### A text beside itself -/

section

variable {s : TokenStream} {t u : Token} (h : t = u ∧ t ∈ s.legal ∧ t.isEnd = false)

include h

theorem kind_of_legal : t.kind = u.kind := congrArg _ h.1

theorem literal_of_legal : t.literal = u.literal := congrArg _ h.1

theorem isEnd_of_legal : t.isEnd = false := h.2.2

end

/-- Every token of a text stands for itself. -/
def self (s : TokenStream) : Correspondence where
  token t u := t = u ∧ t ∈ s.legal ∧ t.isEnd = false
  ending t u := t = u ∧ t = s.last ∧ t.isEnd = true
  guards _ := True
  beyond := []
  earlier := []
  earlier' := []
  kind_eq := kind_of_legal
  literal_eq := fun h _ => literal_of_legal h
  isEnd_token := isEnd_of_legal
  isEnd_ending := fun h => h.2.2
  ending_declares := fun h => .inl (h.1 ▸ h.2.2)
  guards_close := fun h _ => .inl (h.1 ▸ h.2.2)
  guards_append := fun _ => id
  guards_function := fun _ => trivial
  guards_class := fun _ => trivial

end Correspondence

open Correspondence in
/-- The tree of a text is made of the text's tokens, and so are its faults. -/
theorem Parsed.alike_self (source file : String) :
    List.Forall₂ ((self (.ofText file source)).Stmts false)
        (Parsed.ofSource source file).program.statements
        (Parsed.ofSource source file).program.statements ∧
      ∀ f ∈ (Parsed.ofSource source file).faults, f.illegal? = none →
        (self (.ofText file source)).Faults f f := by
  have hs := TokenStream.closed_ofText file source
  obtain ⟨halike, hfaults⟩ := Parsed.alike (K := self (.ofText file source)) trivial
    (fun h => h.1 ▸ h.2.2) rfl ⟨rfl, rfl⟩
    (List.forall₂_same.mpr fun t ht => ⟨rfl, ht, hs.body_open t (TokenStream.mem_body_of_legal ht)⟩)
    rfl ⟨rfl, rfl, hs.last_isEnd⟩
  refine ⟨halike, fun f hf hlegal => List.forall₂_same.mp hfaults f ?_⟩
  exact List.mem_filter.mpr ⟨hf, by simp [hlegal]⟩

section

open Correspondence

variable {source file : String} {n n' : Name}

theorem isMissing_missing (t : Token) : (Name.missing t).isMissing = true := rfl

/-- A declared name is written, unless it is a placeholder. -/
theorem mem_legal_of_names (h : (self (.ofText file source)).Names n n')
    (hn : n.isMissing = false) :
    n.token ∈ (TokenStream.ofText file source).legal ∧ n.token.kind = .identifier := by
  cases h with
  | written ht hk => exact ⟨ht.2.1, hk⟩
  | missing _ => simp [isMissing_missing] at hn

/-- A name that is mentioned is written, or it is the receiver that `::` implies. -/
theorem mem_legal_of_mentions (h : (self (.ofText file source)).Mentions n n')
    (hn : n.isMissing = false) :
    n.token ∈ (TokenStream.ofText file source).legal ∧
        (n.token.kind = .identifier ∨ n.token.kind = .keyword .kwSelf) ∨
      ∃ t ∈ (TokenStream.ofText file source).legal,
        n = ⟨.implied (.keyword .kwSelf) "Self" t⟩ := by
  cases h with
  | name h => exact .inl ((mem_legal_of_names h hn).imp id .inl)
  | receiver ht hk => exact .inl ⟨ht.2.1, .inr hk⟩
  | implied ht => exact .inr ⟨_, ht.2.1, rfl⟩

end

end Clipper
