import Clipper.Proofs.Content.Phrases
import Clipper.Proofs.Grammar.Soundness.Expression
import Mathlib.Data.List.Nodup

/-!
A text that is read without an error is in its tree, token by token: the content of the
text, with what the grammar drops left out, is the content of the tree in the order of
the text.
-/

open scoped List

namespace Clipper

/-- What the nodes of a program hold of its text, in the order of the text. The receiver
that `::` implies takes no room there. -/
def Program.content (p : Program) : List Token :=
  (p.nodes.filterMap Node.content?).mergeSort fun t u => t.span.start ≤ u.span.start

/-- The names of variables and counters, where they are declared. -/
def Program.declared (p : Program) : List Token := p.nodes.filterMap Node.declared?

namespace Token

/-- A token that leaves no trace behind `u`: the name of a counter again, or the sign
between a declared name and its value. -/
def isDropped (declared : List Token) (u t : Token) : Bool :=
  u.repeatsCounter t || declared.contains u && t.isSign

/-- The content of some tokens, the first of them behind `u`. -/
def content (declared : List Token) : Option Token → List Token → List Token
  | _, [] => []
  | u, t :: ts =>
      let others := content declared (some t) ts
      if t.kind.isContent && !u.any (isDropped declared · t) then t :: others else others

end Token

namespace Label

variable {declared : List Token} {u v : Label} {s s' : Spot} {as : List Label}

/-- What bears a label as content is the content. -/
theorem Path.content (h : Path u s as v s')
    (hdeclared : ∀ a ∈ u :: as, a.token ∈ declared ↔ a.role = .declared) :
    Token.content declared (some u.token) (as.map token) = as.filterMap content? := by
  induction h with
  | nil => rfl
  | @cons u a ts as v s l hfit _ ih =>
      have hu := hdeclared u List.mem_cons_self
      have hothers := ih fun b hb => hdeclared b (List.mem_cons_of_mem _ hb)
      have hdropped : Token.isDropped declared u.token a.token = true ↔
          a.role = .again ∨ a.role = .sign := by
        rw [Token.isDropped, Bool.or_eq_true, Bool.and_eq_true, List.contains_iff_mem, hu,
          hfit.again, hfit.sign]
      have hcontent : a.token.kind.isContent = true ↔ a.role ≠ .mark := by
        rw [← Bool.not_eq_false, Ne, hfit.mark]
      have hkept : (a.token.kind.isContent && !Token.isDropped declared u.token a.token) = true ↔
          a.role = .content ∨ a.role = .declared := by
        rw [Bool.and_eq_true, Bool.not_eq_true', ← Bool.not_eq_true, hdropped, hcontent]
        cases a.role <;> simp
      rw [List.map_cons, Token.content, hothers]
      simp only [Option.any_some]
      by_cases hrole : a.role = .content ∨ a.role = .declared
      · have ha : a.content? = some a.token := if_pos hrole
        rw [if_pos (hkept.mpr hrole), List.filterMap_cons_some ha]
      · have ha : a.content? = none := if_neg hrole
        rw [if_neg (mt hkept.mp hrole), List.filterMap_cons_none ha]

/-- A label shows its token or nothing. -/
theorem content?_sublist (as : List Label) : as.filterMap content? <+ as.map token := by
  induction as with
  | nil => exact .slnil
  | cons a as ih =>
      rw [List.map_cons, List.filterMap_cons]
      cases h : a.content? with
      | none => exact ih.cons _
      | some t =>
          obtain rfl : a.token = t := by
            unfold content? at h
            split at h
            · exact Option.some.inj h
            · cases h
          exact ih.cons_cons _

theorem mem_declared? {t : Token} :
    t ∈ as.filterMap declared? ↔ ∃ a ∈ as, a.role = .declared ∧ a.token = t := by
  simp [declared?]

/-- Where no two tokens are the same a label is known by its token. -/
theorem declared_iff (hnodup : (as.map token).Nodup) {a : Label} (ha : a ∈ as) :
    a.token ∈ as.filterMap declared? ↔ a.role = .declared := by
  rw [mem_declared?]
  constructor
  · rintro ⟨b, hb, hrole, htoken⟩
    exact List.inj_on_of_nodup_map hnodup hb ha htoken ▸ hrole
  · exact fun hrole => ⟨a, ha, hrole, rfl⟩

end Label

namespace Token

variable {declared : List Token}

/-- No token is dropped at the beginning of a text. -/
theorem content_begin {u : Token} (hnext : u.isKeyword .kwNext = false) (hu : u ∉ declared)
    (ts : List Token) : content declared none ts = content declared (some u) ts := by
  cases ts with
  | nil => rfl
  | cons t ts => simp [content, isDropped, repeatsCounter, hnext, hu]

theorem content_end {t : Token} (ht : t.isEnd = true) (u : Option Token) (ts : List Token) :
    content declared u (ts ++ [t]) = content declared u ts := by
  induction ts generalizing u with
  | nil =>
      have hk : t.kind = .endOfInput := by simpa [isEnd] using ht
      simp [content, hk, TokenKind.isContent]
  | cons a ts ih => simp [content, ih]

end Token

/-- Tokens in the order of a text are what sorting makes of them in any order. -/
theorem sorted_of_ordered {ts us body : List Token} (hsub : ts <+ body) (hperm : ts ~ us)
    (hbody : body.Pairwise fun t u => t.span.start < u.span.start) :
    ts = us.mergeSort fun t u => t.span.start ≤ u.span.start := by
  have hnodup : (body.map (·.span.start)).Nodup :=
    List.pairwise_map.mpr (hbody.imp Nat.ne_of_lt)
  have hsorted : us ~ us.mergeSort fun t u => t.span.start ≤ u.span.start :=
    (List.mergeSort_perm _ _).symm
  refine @List.Perm.eq_of_pairwise Token (fun t u => t.span.start ≤ u.span.start) _ _
    (fun t u ht hu hle hge => ?_) ?_ ?_ (hperm.trans hsorted)
  · have hu := hsub.subset (hperm.mem_iff.mpr (hsorted.mem_iff.mpr hu))
    exact List.inj_on_of_nodup_map hnodup (hsub.subset ht) hu (Nat.le_antisymm hle hge)
  · exact (hbody.sublist hsub).imp Nat.le_of_lt
  · have htotal : ∀ t u : Token,
        (decide (t.span.start ≤ u.span.start) || decide (u.span.start ≤ t.span.start)) = true := by
      simpa using fun t u : Token => Nat.le_total t.span.start u.span.start
    have htrans : ∀ t u w : Token, decide (t.span.start ≤ u.span.start) = true →
        decide (u.span.start ≤ w.span.start) = true →
        decide (t.span.start ≤ w.span.start) = true := by
      simpa using fun t u w : Token => Nat.le_trans
    exact (List.pairwise_mergeSort htrans htotal us).imp of_decide_eq_true

/-- A text without errors keeps all of its content: what is neither the name of a counter
behind the end of its loop nor the sign between a declared name and its value is what the
nodes of the tree hold, each token once and in the order of the text. -/
theorem content_conserved {source file : String} (h : (Parsed.ofSource source file).isOk = true) :
    Token.content (Parsed.ofSource source file).program.declared none (tokens source file) =
      (Parsed.ofSource source file).program.content := by
  have hs := TokenStream.closed_ofText file source
  have hclean : ∀ f ∈ (Parsed.ofSource source file).faults, true = true ∧ f.isError = false := by
    intro f hf
    rw [Parsed.isOk, Parsed.diagnostics, List.all_map, List.all_eq_true] at h
    exact ⟨rfl, by simpa [Fault.isError_diagnostic] using h f hf⟩
  obtain ⟨l, hderives⟩ := Grammar.derives_program hs hclean
  -- a label in front of the text, which ends where the first line begins
  let u : Label := ⟨{ (TokenStream.ofText file source).last with literal := "", line := 1 }, .mark⟩
  have hkind : u.token.kind = .endOfInput := by simpa [Token.isEnd] using hs.last_isEnd
  obtain ⟨v, _, _, as, hpath, hcontent, hdeclared⟩ := hderives.conserved u (.of_kind hkind rfl)
  have hbody : (TokenStream.ofText file source).body = as.map Label.token :=
    List.append_cancel_right hpath.tokens
  have hordered : (as.map Label.token).Pairwise fun t u => t.span.start < u.span.start := by
    have hpairwise := TokenStream.ofText_pairwise file source
    rw [TokenStream.toList, hbody, List.pairwise_append] at hpairwise
    exact hpairwise.1.imp fun hbefore => hbefore.offset_lt
  have hnodup : (as.map Label.token).Nodup := hordered.imp fun hlt heq => by simp [heq] at hlt
  have hwritten : ∀ a ∈ as, a.token.span.isEmpty = false := fun a ha =>
    TokenStream.ofText_spanned file source _ (hbody ▸ List.mem_map_of_mem ha)
  have hmem : ∀ t, t ∈ as.filterMap Label.declared? ↔
      t ∈ (Parsed.ofSource source file).program.declared := hdeclared
  have hu : u.token ∉ (Parsed.ofSource source file).program.declared := by
    intro hu
    obtain ⟨a, ha, _, htoken⟩ := Label.mem_declared?.mp ((hmem _).mpr hu)
    have hopen := hs.body_open a.token (hbody ▸ List.mem_map_of_mem ha)
    simp [htoken, Token.isEnd, hkind] at hopen
  calc Token.content (Parsed.ofSource source file).program.declared none (tokens source file)
      = Token.content (Parsed.ofSource source file).program.declared (some u.token)
          (as.map Label.token) := by
        rw [tokens, TokenStream.toList, Token.content_end hs.last_isEnd, hbody,
          Token.content_begin (by simp [Token.isKeyword, hkind]) hu]
    _ = as.filterMap Label.content? := by
        refine hpath.content fun a ha => ?_
        rcases List.mem_cons.mp ha with rfl | ha
        · simp [hu]
        · rw [← hmem, Label.declared_iff hnodup ha]
    _ = (Parsed.ofSource source file).program.content :=
        sorted_of_ordered (Label.content?_sublist as) (hcontent hwritten) hordered

/-- A loop whose counter is repeated behind it, with a member of the receiver. -/
theorem content_conserved_loop :
    (Parsed.ofSource "For i = 1 To 2\n::n := -i\nNext i" "t.prw").isOk = true ∧
      Token.content
          (Parsed.ofSource "For i = 1 To 2\n::n := -i\nNext i" "t.prw").program.declared none
          (tokens "For i = 1 To 2\n::n := -i\nNext i" "t.prw") =
        (Parsed.ofSource "For i = 1 To 2\n::n := -i\nNext i" "t.prw").program.content := by
  have h : (Parsed.ofSource "For i = 1 To 2\n::n := -i\nNext i" "t.prw").isOk = true := by
    decide +kernel
  exact ⟨h, content_conserved h⟩

end Clipper
