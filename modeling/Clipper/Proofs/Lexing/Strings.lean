import Clipper.Proofs.Lexing.Shape

/-!
Strings. The lexer and the one who splits the text of a string into its parts look for the closing
delimiter each in its own way. They find the same one, so the parts make up the string again.
-/

namespace Clipper

namespace Literal

/-- Where the closing delimiter stands. The flag is set behind a backslash, which takes the next
character. -/
def closing? (d : Char) : Bool → List Char → Option Nat
  | _, [] => none
  | true, _ :: cs => (closing? d false cs).map (· + 1)
  | false, c :: cs =>
      if c = '\\' then (closing? d true cs).map (· + 1)
      else if c = d then some 0
      else (closing? d false cs).map (· + 1)

/-- The text in front of the closing delimiter, or the whole text without one. -/
def upTo (cs : List Char) : Option Nat → List Char
  | some i => cs.take i
  | none => cs

variable {c d : Char} {cs : List Char}

@[simp] theorem upTo_cons (c : Char) (cs : List Char) (i? : Option Nat) :
    upTo (c :: cs) (i?.map (· + 1)) = c :: upTo cs i? := by
  cases i? <;> rfl

/-- A string is split at its closing delimiter. -/
theorem stringBody_eq (hd : d ≠ '\\') (cs : List Char) :
    stringBody d cs = upTo cs (closing? d false cs) := by
  fun_induction stringBody d cs with
  | case1 c cs ih => rw [closing?, if_pos rfl, closing?, upTo_cons, upTo_cons, ih]
  | case2 => simp [closing?, hd, upTo]
  | case3 c cs hpair hc ih =>
      by_cases hslash : c = '\\'
      · subst hslash
        cases cs with
        | nil => rfl
        | cons c' cs => exact absurd rfl (hpair c' cs rfl)
      · simp [closing?, hslash, hc, ih]
  | case4 => rfl

/-- A body that its delimiter closes is taken whole. -/
theorem closing?_body (hd : d ≠ '\\') (h : Lexeme.Body d cs) (rest : List Char) :
    closing? d false (cs ++ d :: rest) = some cs.length := by
  induction h with
  | nil => simp [closing?, hd]
  | escape _ ih => simp [closing?, ih]
  | char hslash hne _ ih => simp [closing?, hslash, hne, ih]

end Literal

namespace Lexeme

open Literal

variable {d : Char} {cs : List Char}

/-- Behind its delimiter a string ends at another one, and not with the text. -/
def closes (d : Char) : List Char → Bool
  | [] => false
  | ['\\'] => false
  | '\\' :: _ :: cs => closes d cs
  | c :: cs => if c = d then true else closes d cs

/-- A closed string is its body and a delimiter. -/
theorem take_of_closes (h : closes d cs = true) :
    Body d (stringBody d cs) ∧ cs.take (stringLength d cs) = stringBody d cs ++ [d] := by
  fun_induction stringLength d cs with
  | case1 => simp [closes] at h
  | case2 => simp [closes] at h
  | case3 c cs ih =>
      obtain ⟨hbody, htake⟩ := ih (by simpa [closes] using h)
      simpa [stringBody, htake] using hbody.escape
  | case4 cs => simpa [stringBody] using Body.nil
  | case5 c cs hlast hpair hc ih =>
      have hslash : c ≠ '\\' := ne_backslash hlast hpair
      obtain ⟨hbody, htake⟩ := ih (by simpa [closes, hslash, hc] using h)
      simpa [stringBody, hslash, hc, htake] using hbody.char hslash hc

/-- Without a closing delimiter a string takes the whole text, and none is found in it. -/
theorem take_of_not_closes (h : closes d cs = false) :
    cs.take (stringLength d cs) = cs ∧ closing? d false cs = none := by
  fun_induction stringLength d cs with
  | case1 => simp [closing?]
  | case2 => simp [closing?]
  | case3 c cs ih =>
      obtain ⟨htake, hnone⟩ := ih (by simpa [closes] using h)
      simp [closing?, htake, hnone]
  | case4 cs => simp [closes] at h
  | case5 c cs hlast hpair hc ih =>
      have hslash : c ≠ '\\' := ne_backslash hlast hpair
      obtain ⟨htake, hnone⟩ := ih (by simpa [closes, hslash, hc] using h)
      simp [closing?, hslash, hc, htake, hnone]

end Lexeme

/-- The token is a string with the delimiter `d` in front of `text`, and is split as it was
scanned. -/
structure Token.SplitAsScanned (t : Token) (d : Char) (text : List Char) : Prop where
  scanned : t.literal.toList = d :: text.take (Lexeme.stringLength d text)
  /-- The first character is the delimiter, and the body ends in front of the closing one. -/
  parts : Literal.stringParts t.literal =
    (d, String.ofList (Literal.upTo t.literal.toList.tail
      (Literal.closing? d false t.literal.toList.tail)))
  /-- A closing delimiter is found if the scan has stopped at one. -/
  closed : (Literal.closing? d false t.literal.toList.tail).isSome = Lexeme.closes d text
  /-- The closing delimiter is the last character. -/
  last : ∀ i, Literal.closing? d false t.literal.toList.tail = some i →
    t.literal.length = i + 2 ∧ t.literal.toList.getLast? = some d
  joined : t.literal = d.toString ++ (Literal.stringParts t.literal).2 ++
    if Lexeme.closes d text then d.toString else ""

/-- What is found behind the first character decides all parts. -/
theorem Token.splitAsScanned {t : Token} {d : Char} {text : List Char} (hd : d ≠ '\\')
    (hscanned : t.literal.toList = d :: text.take (Lexeme.stringLength d text)) :
    t.SplitAsScanned d text := by
  have hparts : Literal.stringParts t.literal = (d, String.ofList (Literal.stringBody d text)) :=
    Lexeme.stringParts_of_scanned hscanned
  have hlength : t.literal.length = (text.take (Lexeme.stringLength d text)).length + 1 := by
    rw [← String.length_toList, hscanned, List.length_cons]
  have hsplit : Literal.stringParts t.literal =
      (d, String.ofList (Literal.upTo t.literal.toList.tail
        (Literal.closing? d false t.literal.toList.tail))) := by
    rw [hparts, hscanned, List.tail_cons, ← Literal.stringBody_eq hd, Lexeme.stringBody_take]
  cases hcloses : Lexeme.closes d text with
  | true =>
      obtain ⟨hbody, htake⟩ := Lexeme.take_of_closes hcloses
      have hfound : Literal.closing? d false t.literal.toList.tail =
          some (Literal.stringBody d text).length := by
        rw [hscanned, List.tail_cons, htake]
        exact Literal.closing?_body hd hbody []
      refine ⟨hscanned, hsplit, by rw [hfound, hcloses]; rfl, fun i hi => ⟨?_, ?_⟩, ?_⟩
      · obtain rfl : (Literal.stringBody d text).length = i :=
          Option.some.inj (hfound.symm.trans hi)
        rw [hlength, htake, List.length_append, List.length_singleton]
      · rw [hscanned, htake, ← List.cons_append, List.getLast?_concat]
      · refine String.toList_inj.mp ?_
        simp [hscanned, hparts, htake, hcloses]
  | false =>
      obtain ⟨htake, hnone⟩ := Lexeme.take_of_not_closes hcloses
      have hnone : Literal.closing? d false t.literal.toList.tail = none := by
        rw [hscanned, List.tail_cons, htake, hnone]
      refine ⟨hscanned, hsplit, by rw [hnone, hcloses]; rfl, fun i hi => ?_, ?_⟩
      · rw [hnone] at hi
        cases hi
      · refine String.toList_inj.mp ?_
        rw [hsplit, hnone, Literal.upTo, hcloses, hscanned]
        simp

/-- Nothing is skipped in front of a string. -/
theorem Cursor.skipTrivia_delimiter {d : Char} (hd : Lexeme.isDelimiter d = true)
    (text : List Char) : (ofText (d :: text)).skipTrivia = ofText (d :: text) := by
  have hslash : d ≠ '/' := by
    rintro rfl
    cases hd
  have hdirective : d ≠ '#' := by
    rintro rfl
    cases hd
  exact Trivia.skip_begins (Lexeme.begins_delimiter hd []) (fun _ => hdirective) fun hc =>
    absurd hc hslash

/-- A string that a delimiter closes is read from its parts again. -/
theorem Cursor.next_joined {d : Char} {body : List Char} (hd : Lexeme.isDelimiter d = true)
    (hbody : Lexeme.Body d body) (rest : List Char) (file : String) :
    ((ofText (d :: (body ++ d :: rest))).next file).1 =
      ⟨.string, String.ofList (d :: (body ++ [d])), ⟨0, Place.byteSize (d :: (body ++ [d]))⟩,
        1, 1, file⟩ := by
  have hslash : d ≠ '\\' := (Lexeme.ne_of_isDelimiter hd).1
  have hskip := skipTrivia_delimiter hd (body ++ d :: rest)
  have htake : (body ++ d :: rest).take (Lexeme.stringLength d (body ++ d :: rest)) =
      body ++ [d] := by
    rw [Lexeme.stringLength_body hslash hbody, List.take_length_add_append]
    rfl
  rw [next_delimiter (by rw [hskip]; rfl) hd, hskip, htake]
  simp [ofText, Place.start]

/-- A string token of a text is split at the delimiter at which the lexer stopped. If there is one,
the delimiter, the body and the delimiter are read as the same token, whatever comes behind. -/
theorem tokens_string (source file : String) {t : Token} (ht : t ∈ tokens source file)
    (hk : t.kind = .string) :
    ∃ before d text, source.toList = before ++ d :: text ∧
      Place.byteSize before = t.span.start ∧ Lexeme.isDelimiter d = true ∧
      t.SplitAsScanned d text ∧
      (Lexeme.closes d text = true → ∀ more file',
        (tokens (d.toString ++ (Literal.stringParts t.literal).2 ++ d.toString ++ more)
          file').head? =
            some { t with span := ⟨0, t.span.size⟩, line := 1, column := 1, file := file' }) := by
  obtain ⟨c, before, rfl, htext, hplace⟩ := TokenStream.exists_cursor_of_mem ht
  obtain ⟨gap, -, -, -, hnext⟩ := c.next_eq file
  cases hs : c.skipTrivia.ahead with
  | nil =>
      simp only [hs] at hnext
      rw [hnext] at hk
      cases hk
  | cons d text =>
      simp only [hs] at hnext
      have hd : Lexeme.isDelimiter d = true := Lexeme.isDelimiter_of_string (hnext.1.symm.trans hk)
      have hread := Cursor.next_delimiter hs hd file
      have hscanned : (c.next file).1.literal.toList =
          d :: text.take (Lexeme.stringLength d text) := by
        rw [hread, String.toList_ofList]
      have hsplit := Token.splitAsScanned (Lexeme.ne_of_isDelimiter hd).1 hscanned
      refine ⟨before, d, text, hs ▸ htext, ?_, hd, hsplit, fun hcloses more file' => ?_⟩
      · rw [hread, hplace, Place.past_offset]
        exact (Nat.zero_add _).symm
      · obtain ⟨hbody, htake⟩ := Lexeme.take_of_closes hcloses
        have hagain : (d.toString ++ (Literal.stringParts (c.next file).1.literal).2 ++
            d.toString ++ more).toList =
              d :: (Literal.stringBody d text ++ d :: more.toList) := by
          rw [Lexeme.stringParts_of_scanned hscanned]
          simp
        rw [tokens, TokenStream.ofText, TokenStream.head?_toList, hagain, Cursor.next_joined hd hbody,
          hread, htake]
        simp [Span.size]

/-- A string with both quotation marks in it, behind an assignment. -/
def quotingToken : Token := ⟨.string, "\"a\\\"'\"", ⟨5, 11⟩, 1, 6, "t.prw"⟩

/-- The backslash takes the first quotation mark that could close the string. -/
theorem tokens_string_quoting :
    quotingToken ∈ tokens "x := \"a\\\"'\" + y" "t.prw" ∧ quotingToken.kind = .string ∧
      ∃ before d text, "x := \"a\\\"'\" + y".toList = before ++ d :: text ∧
        Place.byteSize before = 5 ∧ Lexeme.isDelimiter d = true ∧
        quotingToken.SplitAsScanned d text ∧
        (Lexeme.closes d text = true → ∀ more file',
          (tokens (d.toString ++ (Literal.stringParts quotingToken.literal).2 ++ d.toString ++ more)
            file').head? =
              some { quotingToken with
                span := ⟨0, 6⟩, line := 1, column := 1, file := file' }) := by
  have ht : quotingToken ∈ tokens "x := \"a\\\"'\" + y" "t.prw" := by decide +kernel
  exact ⟨ht, rfl, tokens_string "x := \"a\\\"'\" + y" "t.prw" ht rfl⟩

end Clipper
