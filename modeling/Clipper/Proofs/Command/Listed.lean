import Clipper.Command.Outcome
import Clipper.Proofs.Text.Quoted
import Mathlib.Data.List.Nodup

/-!
Listings of tokens. A text is listed on as many lines as it has tokens, and from its line the
place, the kind and the text of a token can be told.
-/

namespace Clipper

/-! ### Names of kinds -/

namespace TokenKind

def all : List TokenKind :=
  Keyword.all.map keyword ++ Operator.all.map operator ++ Punctuation.all.map punctuation ++
    [identifier, integer, float, string, date, illegal, endOfInput]

theorem mem_all (k : TokenKind) : k ∈ all := by
  cases k with
  | keyword k => simp [all, k.mem_all]
  | operator o => simp [all, o.mem_all]
  | punctuation p => simp [all, p.mem_all]
  | _ => simp [all]

/-- No two kinds have the same name. -/
theorem name_injective {k k' : TokenKind} (h : k.name = k'.name) : k = k' := by
  have hnodup : (all.map name).Nodup := by decide +kernel
  exact List.inj_on_of_nodup_map hnodup k.mem_all k'.mem_all h

/-- Names of kinds are on one line, and hold no quotation mark. -/
theorem not_mem_name (k : TokenKind) : '\n' ∉ k.name.toList ∧ '"' ∉ k.name.toList := by
  have hall : ∀ k ∈ all, '\n' ∉ k.name.toList ∧ '"' ∉ k.name.toList := by decide +kernel
  exact hall k k.mem_all

end TokenKind

namespace Token

/-! ### Single lines -/

theorem toList_listing (t : Token) : t.listing.toList =
    Nat.toDigits 10 t.line ++ ':' :: (Nat.toDigits 10 t.column ++ ' ' ::
      (t.kind.name.toList ++ ' ' :: (Text.Quoted.encode t.literal).toList)) := by
  simp [listing]

theorem not_mem_toDigits {c : Char} (hc : c.isAlphanum = false) (n : Nat) :
    c ∉ Nat.toDigits 10 n := by
  intro hmem
  rw [Text.isAlphanum_of_mem_toDigits (by decide) (by decide) hmem] at hc
  cases hc

theorem newline_not_mem_listing (t : Token) : '\n' ∉ t.listing.toList := by
  have hline := not_mem_toDigits (c := '\n') (by decide) t.line
  have hcolumn := not_mem_toDigits (c := '\n') (by decide) t.column
  have hquoted := Text.Quoted.newline_not_mem_encode t.literal
  rw [toList_listing]
  simp [hline, hcolumn, t.kind.not_mem_name.1, hquoted]

/-- Tokens that are listed alike differ in their files and spans only. -/
theorem eq_of_listing {t u : Token} (h : t.listing = u.listing) :
    t.line = u.line ∧ t.column = u.column ∧ t.kind = u.kind ∧ t.literal = u.literal := by
  have hlist := congrArg String.toList h
  rw [toList_listing, toList_listing] at hlist
  obtain ⟨hline, hlist⟩ := Text.append_mark_inj (not_mem_toDigits (by decide) _)
    (not_mem_toDigits (by decide) _) hlist
  obtain ⟨hcolumn, hlist⟩ := Text.append_mark_inj (not_mem_toDigits (by decide) _)
    (not_mem_toDigits (by decide) _) hlist
  -- A name may hold blanks, but no quotation mark: the first one begins the literal.
  have hfront : ∀ v : Token, '"' ∉ v.kind.name.toList ++ [' '] := fun v => by
    simpa using v.kind.not_mem_name.2
  rw [Text.Quoted.toList_encode, Text.Quoted.toList_encode, List.append_cons,
    List.append_cons u.kind.name.toList] at hlist
  obtain ⟨hname, hbody⟩ := Text.append_mark_inj (hfront t) (hfront u) hlist
  have hquoted : Text.Quoted.encode t.literal = Text.Quoted.encode u.literal := by
    apply String.toList_inj.mp
    rw [Text.Quoted.toList_encode, Text.Quoted.toList_encode, hbody]
  have hkind : t.kind.name = u.kind.name := String.toList_inj.mp (List.append_cancel_right hname)
  refine ⟨?_, ?_, TokenKind.name_injective hkind, Text.Quoted.encode_injective hquoted⟩
  · exact Text.toDigits_injective (by decide) (by decide) hline
  · exact Text.toDigits_injective (by decide) (by decide) hcolumn

end Token

/-! ### Whole listings -/

/-- Lines with their line ends, the text behind the last of which is empty. -/
theorem toList_join_lines (ls : List String) : (String.join (ls.map (· ++ "\n"))).toList =
    ['\n'].intercalate (ls.map String.toList ++ [[]]) := by
  induction ls with
  | nil => rfl
  | cons l ls ih =>
      rw [List.map_cons, String.join_cons, String.toList_append, ih, List.map_cons,
        List.cons_append, List.intercalate_cons_of_ne_nil (by simp), String.toList_append]
      rfl

/-- The listing of a text has a line for each token, in order, and no other line end. Tokens are
listed alike just if they agree in their place, kind and text. -/
theorem Outcome.lex_lines (path source : String) :
    (lex path source).output.toList.splitOn '\n' =
        (tokens source path).map (fun t => t.listing.toList) ++ [[]] ∧
      (∀ t : Token, '\n' ∉ t.listing.toList) ∧
      ∀ t u : Token, t.listing = u.listing ↔
        t.line = u.line ∧ t.column = u.column ∧ t.kind = u.kind ∧ t.literal = u.literal := by
  refine ⟨?_, Token.newline_not_mem_listing, fun t u => ⟨Token.eq_of_listing, ?_⟩⟩
  · have hlines := toList_join_lines ((tokens source path).map Token.listing)
    rw [List.map_map, List.map_map] at hlines
    have hbreaks : ∀ l ∈ (tokens source path).map (fun t => t.listing.toList) ++ [[]],
        '\n' ∉ l := by
      rw [List.forall_mem_append, List.forall_mem_map]
      exact ⟨fun t _ => t.newline_not_mem_listing, by simp⟩
    calc (lex path source).output.toList.splitOn '\n'
      _ = (['\n'].intercalate ((tokens source path).map (fun t => t.listing.toList) ++
            [[]])).splitOn '\n' := congrArg (List.splitOn '\n') hlines
      _ = _ := List.splitOn_intercalate '\n' hbreaks (by simp)
  · rintro ⟨hline, hcolumn, hkind, hliteral⟩
    rw [Token.listing, Token.listing, hline, hcolumn, hkind, hliteral]

end Clipper
