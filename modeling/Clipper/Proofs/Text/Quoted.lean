import Clipper.Text.Quoted
import Mathlib.Data.List.TakeWhile

/-!
Quoted text. It stays on one line, and no two texts are quoted alike: a written character says
where it ends and which character it stands for.
-/

namespace Clipper.Text

/-! ### Digits -/

section Digits

variable {b m n : Nat} {c : Char}

/-- The last digit stands behind the digits of what is left of a number. -/
theorem toDigits_split (hb : 1 < b) (n : Nat) : Nat.toDigits b n =
    (if n < b then [] else Nat.toDigits b (n / b)) ++ [(n % b).digitChar] := by
  rw [Nat.toDigits_eq_if hb]
  split
  · rw [Nat.mod_eq_of_lt ‹_›, List.nil_append]
  · rfl

theorem isAlphanum_of_mem_toDigits (hb : 1 < b) (hb' : b ≤ 16) (h : c ∈ Nat.toDigits b n) :
    c.isAlphanum = true := by
  have hall : ∀ d < 16, d.digitChar.isAlphanum = true := by decide
  induction n using Nat.strongRecOn with
  | ind n ih =>
      rw [toDigits_split hb, List.mem_append, List.mem_singleton] at h
      rcases h with h | rfl
      · split at h
        · cases h
        · exact ih (n / b) (Nat.div_lt_self (by omega) hb) h
      · have := Nat.mod_lt n (Nat.zero_lt_of_lt hb)
        exact hall (n % b) (by omega)

/-- No two numbers have the same digits. -/
theorem toDigits_injective (hb : 1 < b) (hb' : b ≤ 16)
    (h : Nat.toDigits b m = Nat.toDigits b n) : m = n := by
  have hall : ∀ d < 16, ∀ e < 16, d.digitChar = e.digitChar → d = e := by decide
  induction m using Nat.strongRecOn generalizing n with
  | ind m ih =>
      rw [toDigits_split hb m, toDigits_split hb n] at h
      obtain ⟨hfront, hlast⟩ := List.append_inj' h rfl
      have hm := Nat.mod_lt m (Nat.zero_lt_of_lt hb)
      have hn := Nat.mod_lt n (Nat.zero_lt_of_lt hb)
      have hlast : m % b = n % b :=
        hall (m % b) (by omega) (n % b) (by omega) (List.singleton_inj.mp hlast)
      split at hfront
      · split at hfront
        · rwa [Nat.mod_eq_of_lt ‹_›, Nat.mod_eq_of_lt ‹_›] at hlast
        · exact absurd hfront.symm Nat.toDigits_ne_nil
      · split at hfront
        · exact absurd hfront Nat.toDigits_ne_nil
        · have hrest := ih (m / b) (Nat.div_lt_self (by omega) hb) hfront
          rw [← Nat.div_add_mod m b, ← Nat.div_add_mod n b, hrest, hlast]

end Digits

/-- A mark divides a text where it comes first. -/
theorem append_mark_inj {mark : Char} {xs ys as bs : List Char} (hxs : mark ∉ xs) (has : mark ∉ as)
    (h : xs ++ mark :: ys = as ++ mark :: bs) : xs = as ∧ ys = bs := by
  have hfront : ∀ {xs : List Char} (ys : List Char), mark ∉ xs →
      (xs ++ mark :: ys).takeWhile (· != mark) = xs := by
    intro xs ys hxs
    have hne : ∀ c ∈ xs, (c != mark) = true := fun c hc => by
      rw [bne_iff_ne]
      rintro rfl
      exact hxs hc
    rw [List.takeWhile_append_of_pos hne]
    simp
  obtain rfl : xs = as := by
    rw [← hfront ys hxs, h, hfront bs has]
  exact ⟨rfl, (List.cons.inj (List.append_cancel_left h)).2⟩

namespace Quoted

variable {c d e : Char} {cs ds xs ys : List Char}

/-! ### Single characters -/

/-- What an escape of two characters stands for, by the second one. -/
def escaped? (e : Char) : Option Char :=
  match e with
  | '0' => some '\x00'
  | 't' => some '\t'
  | 'r' => some '\r'
  | 'n' => some '\n'
  | '\\' => some '\\'
  | '"' => some '"'
  | _ => none

/-- The written forms of a character. -/
inductive Written : Char → List Char → Prop
  | escape {c e : Char} : escaped? e = some c → Written c ['\\', e]
  | codePoint (c : Char) : Written c (byCodePoint c)
  | plain {c : Char} : c ≠ '\\' → c ≠ '\n' → Written c [c]

theorem written_encodeChar (c : Char) : Written c (encodeChar c) := by
  unfold encodeChar
  split
  case h_7 _ hline hslash _ =>
    split
    · exact .codePoint c
    · exact .plain hslash hline
  all_goals exact .escape rfl

theorem escaped?_ne (h : escaped? e = some c) : e ≠ 'u' ∧ e ≠ '\n' := by
  constructor <;> rintro rfl <;> cases h

theorem not_mem_hexDigits (hc : c.isAlphanum = false) (n : Nat) : c ∉ hexDigits n := by
  intro hmem
  rw [isAlphanum_of_mem_toDigits (by decide) (by decide) hmem] at hc
  cases hc

/-- The closing brace ends the code point. -/
theorem byCodePoint_append_inj (h : byCodePoint c ++ xs = byCodePoint d ++ ys) :
    c = d ∧ xs = ys := by
  have hdigits : hexDigits c.toNat ++ '\x7d' :: xs = hexDigits d.toNat ++ '\x7d' :: ys := by
    simpa [byCodePoint] using h
  obtain ⟨hsame, hrest⟩ := append_mark_inj (not_mem_hexDigits (by decide) _)
    (not_mem_hexDigits (by decide) _) hdigits
  have hpoint : c.toNat = d.toNat := toDigits_injective (by decide) (by decide) hsame
  exact ⟨Char.toNat_inj.mp hpoint, hrest⟩

namespace Written

/-- No written form is the beginning of that of another character. -/
theorem append_inj (hc : Written c cs) (hd : Written d ds) (h : cs ++ xs = ds ++ ys) :
    c = d ∧ xs = ys := by
  cases hc with
  | escape he =>
      cases hd with
      | escape he' =>
          obtain ⟨rfl, rfl⟩ : _ ∧ xs = ys := by simpa using h
          exact ⟨Option.some.inj (he.symm.trans he'), rfl⟩
      | codePoint => exact absurd (List.cons.inj (List.cons.inj h).2).1 (escaped?_ne he).1
      | plain hslash => exact absurd (List.cons.inj h).1.symm hslash
  | codePoint =>
      cases hd with
      | escape he' => exact absurd (List.cons.inj (List.cons.inj h).2).1.symm (escaped?_ne he').1
      | codePoint => exact byCodePoint_append_inj h
      | plain hslash => exact absurd (List.cons.inj h).1.symm hslash
  | plain hslash =>
      cases hd with
      | escape => exact absurd (List.cons.inj h).1 hslash
      | codePoint => exact absurd (List.cons.inj h).1 hslash
      | plain => exact List.cons.inj h

theorem ne_nil (h : Written c cs) : cs ≠ [] := by
  cases h <;> simp [byCodePoint]

theorem newline_not_mem (h : Written c cs) : '\n' ∉ cs := by
  cases h with
  | escape he => simpa using (escaped?_ne he).2.symm
  | codePoint => simpa [byCodePoint] using not_mem_hexDigits (by decide) c.toNat
  | plain _ hline => simpa using hline.symm

end Written

/-! ### Texts -/

theorem toList_encode (s : String) :
    (encode s).toList = '"' :: (s.toList.flatMap encodeChar ++ ['"']) :=
  String.toList_ofList

theorem newline_not_mem_encode (s : String) : '\n' ∉ (encode s).toList := by
  have hbody : '\n' ∉ s.toList.flatMap encodeChar := by
    rw [List.mem_flatMap]
    rintro ⟨c, -, hc⟩
    exact (written_encodeChar c).newline_not_mem hc
  rw [toList_encode]
  simpa using hbody

theorem flatMap_encodeChar_injective (h : cs.flatMap encodeChar = ds.flatMap encodeChar) :
    cs = ds := by
  induction cs generalizing ds with
  | nil =>
      cases ds with
      | nil => rfl
      | cons d ds => exact absurd (List.append_eq_nil_iff.mp h.symm).1 (written_encodeChar d).ne_nil
  | cons c cs ih =>
      cases ds with
      | nil => exact absurd (List.append_eq_nil_iff.mp h).1 (written_encodeChar c).ne_nil
      | cons d ds =>
          rw [List.flatMap_cons, List.flatMap_cons] at h
          obtain ⟨rfl, hrest⟩ := (written_encodeChar c).append_inj (written_encodeChar d) h
          rw [ih hrest]

/-- No two texts are quoted alike. -/
theorem encode_injective {s t : String} (h : encode s = encode t) : s = t := by
  have hlist := congrArg String.toList h
  rw [toList_encode, toList_encode] at hlist
  have hbody := List.append_cancel_right (List.cons.inj hlist).2
  exact String.toList_inj.mp (flatMap_encodeChar_injective hbody)

end Quoted

end Clipper.Text
