import Clipper.Proofs.Faults.Productions
import Mathlib.Data.List.Forall2
import Mathlib.Data.List.Nodup

/-!
A tree without errors is complete, and an incomplete one says where: every conditional,
loop or class without its closing word has a diagnostic of its own, which quotes the
place of the token that opened it.
-/

open scoped List

namespace Clipper

/-! ### Written places -/

theorem append_cons_inj {c : Char} {xs ys us vs : List Char} (hus : c ∉ us) (hvs : c ∉ vs)
    (h : xs ++ c :: us = ys ++ c :: vs) : xs = ys ∧ us = vs := by
  rcases List.append_eq_append_iff.mp h with ⟨zs, rfl, hz⟩ | ⟨zs, rfl, hz⟩
  · cases zs with
    | nil => simpa using hz
    | cons z zs =>
        obtain ⟨_, rfl⟩ := List.cons.inj hz
        simp at hus
  · cases zs with
    | nil => simpa using hz.symm
    | cons z zs =>
        obtain ⟨_, rfl⟩ := List.cons.inj hz
        simp at hvs

theorem not_mem_digits {c : Char} (hc : c.isDigit = false) (n : Nat) :
    c ∉ (toString n).toList := by
  intro hmem
  rw [Nat.toString_eq_repr, Nat.toList_repr] at hmem
  simp [Nat.isDigit_of_mem_toDigits (by decide) (by decide) hmem] at hc

theorem digits_inj {m n : Nat} (h : (toString m).toList = (toString n).toList) : m = n := by
  simp only [Nat.toString_eq_repr, Nat.toList_repr] at h
  rw [← Nat.ofDigitChars_ten_toDigits (n := m), h, Nat.ofDigitChars_ten_toDigits]

/-- The note on an open construct. -/
def openedNote (opener : Token) : String :=
  "'" ++ opener.literal ++ "' opened at " ++ Fault.placeText opener ++ " is not closed"

/-- The notes on two constructs differ, if only in the places they quote. -/
theorem openedNote_inj {t u : Token} (h : openedNote t = openedNote u) :
    (t.line, t.column) = (u.line, u.column) := by
  have hlist : ∀ t : Token, (openedNote t).toList =
      (("'" ++ t.literal ++ "' opened at").toList ++ ' ' :: (Fault.placeText t).toList) ++
        " is not closed".toList := by
    intro t
    simp [openedNote]
  have hplace : ∀ t : Token, (Fault.placeText t).toList =
      (toString t.line).toList ++ ':' :: (toString t.column).toList := by
    intro t
    simp [Fault.placeText]
  have hblank : ∀ t : Token, ' ' ∉ (Fault.placeText t).toList := by
    intro t
    rw [hplace, List.mem_append, List.mem_cons]
    rintro (hline | hcolon | hcolumn)
    · exact not_mem_digits (by decide) _ hline
    · exact absurd hcolon (by decide)
    · exact not_mem_digits (by decide) _ hcolumn
  have h' : (openedNote t).toList = (openedNote u).toList := by rw [h]
  rw [hlist, hlist] at h'
  have hplaces := (append_cons_inj (hblank t) (hblank u) (List.append_cancel_right h')).2
  rw [hplace, hplace] at hplaces
  obtain ⟨hline, hcolumn⟩ := append_cons_inj (not_mem_digits (by decide) _)
    (not_mem_digits (by decide) _) hplaces
  rw [digits_inj hline, digits_inj hcolumn]

/-! ### Trees and their diagnostics -/

namespace Parsed

/-- An expression of the text has been given up for its depth. -/
def TooDeep (p : Parsed) : Prop := ∃ t, Fault.tooDeep t ∈ p.faults

end Parsed

/-- The diagnostic that `k` is missing to close what `opener` opened. -/
def Diagnostic.TellsUnclosed (d : Diagnostic) (k : Keyword) (opener : Token) : Prop :=
  d.isError = true ∧ d.notes = [openedNote opener] ∧
    ∃ found : Token, d.message = "expected '" ++ k.canonical ++ "', found " ++ found.describe

namespace Grammar

theorem accounts_program {s : TokenStream} (hs : s.Closed) {ss : List Stmt} {r : Reader}
    (h : Reads s ss r) : (Reader.ofStream s).Accounts (Nodes.stmts ss) r := by
  rw [Nodes.stmts_eq]
  exact h.statements.accounts
    (fun _ _ _ hr _ h => accounts_statement (accounted_expression _) hr h)
    (Reader.sound_ofStream hs)

/-- What a whole text owes for its open constructs. -/
theorem unclosed_program (source file : String) :
    ((Nodes.unclosed (Parsed.ofSource source file).program.nodes).map Prod.snd).Pairwise
        (fun t u => (t.line, t.column) ≠ (u.line, u.column)) ∧
      ((Parsed.ofSource source file).TooDeep ∨
        Reader.Pays (Parsed.ofSource source file).faults
          (Parsed.ofSource source file).program.nodes) := by
  have hs := TokenStream.closed_ofText file source
  obtain ⟨r, hreads, hfaults⟩ := exists_reads hs
  have ha : (Reader.ofStream _).Accounts (Parsed.ofSource source file).program.nodes r :=
    accounts_program hs hreads
  constructor
  · obtain ⟨ts, hts, hsub⟩ := ha.taken
    rw [Reader.pending_of_atEnd hreads.onward.sound hreads.atEnd, List.append_nil,
      Reader.pending_ofStream hs] at hts
    have hplaces : ts.Pairwise fun t u => (t.line, t.column) ≠ (u.line, u.column) := by
      have hall : (TokenStream.ofText file source).body.Pairwise
          fun t u => (t.line, t.column) ≠ (u.line, u.column) :=
        (List.pairwise_append.mp (TokenStream.ofText_pairwise file source)).1.imp
          Place.Before.line_column
      exact hts ▸ hall.filter _
    obtain ⟨us, hperm, hus⟩ := hsub
    exact (hperm.pairwise_iff Ne.symm).mp (hplaces.sublist hus)
  · rcases ha.paid with ⟨t, ht⟩ | ⟨fs, hfs, hpays⟩
    · exact .inl ⟨t, by rw [Parsed.ofSource, hfaults]; exact Array.mem_toList_iff.mpr ht⟩
    · refine .inr ?_
      rw [Parsed.ofSource, hfaults, hfs]
      exact ⟨hpays.unclosed.trans
          (by rw [List.filterMap_append]; exact List.sublist_append_right _ _),
        fun hp => by rw [List.any_append, hpays.placeholders hp, Bool.or_true]⟩

end Grammar

/-- The members that two lists keep agree one by one if what is kept of them agrees. -/
theorem forall₂_of_filterMap_eq {α β γ : Type} {f : α → Option γ} {g : β → Option γ}
    {xs : List α} {ys : List β} (h : xs.filterMap f = ys.filterMap g) :
    List.Forall₂ (fun x y => ∃ u, f x = some u ∧ g y = some u)
      (xs.filter (f · |>.isSome)) (ys.filter (g · |>.isSome)) := by
  have hmap : ∀ {δ : Type} (k : δ → Option γ) (zs : List δ),
      (zs.filter (k · |>.isSome)).map k = (zs.filterMap k).map some := by
    intro δ k zs
    induction zs with
    | nil => rfl
    | cons z zs ih => cases hk : k z <;> simp [hk, ih]
  have heq : (xs.filter (f · |>.isSome)).map f = (ys.filter (g · |>.isSome)).map g := by
    rw [hmap, hmap, h]
  have hall : List.Forall₂ (fun x y => f x = g y) (xs.filter (f · |>.isSome))
      (ys.filter (g · |>.isSome)) := by
    rw [← List.forall₂_eq_eq_eq, List.forall₂_map_left_iff, List.forall₂_map_right_iff] at heq
    exact heq
  refine ((List.forall₂_and_left _ _).mpr ⟨fun x hx => (List.mem_filter.mp hx).2, hall⟩).imp
    fun x y hxy => ?_
  obtain ⟨u, hu⟩ := Option.isSome_iff_exists.mp hxy.1
  exact ⟨u, hu, hxy.2 ▸ hu⟩

/-- A fault of its own for each open construct that the faults pay for. -/
theorem exists_unclosed_faults {ns : List Node} {fs : List Fault} (h : Reader.Pays fs ns) :
    ∃ gs, gs <+ fs ∧ List.Forall₂ (fun n g => ∃ u, n.unclosed? = some u ∧ g.unclosed? = some u)
      (ns.filter (·.unclosed?.isSome)) gs := by
  obtain ⟨gs, hgs, heq⟩ := List.sublist_filterMap_iff.mp h.unclosed
  exact ⟨_, List.filter_sublist.trans hgs, forall₂_of_filterMap_eq heq⟩

theorem tellsUnclosed_diagnostic {f : Fault} {k : Keyword} {opener : Token}
    (h : f.unclosed? = some (k, opener)) : f.diagnostic.TellsUnclosed k opener := by
  cases f with
  | unclosed closer t found =>
      obtain ⟨k', hk, hpair⟩ := Option.map_eq_some_iff.mp h
      obtain ⟨rfl, rfl⟩ := Prod.mk.inj hpair
      have hcanonical : k'.canonical = closer := by simpa using List.find?_some hk
      exact ⟨rfl, rfl, found, by rw [hcanonical]; rfl⟩
  | _ => simp [Fault.unclosed?] at h

/-- Diagnostics on constructs that were opened at different places differ. -/
theorem nodup_diagnostics {ns : List Node} {gs : List Fault}
    (hpair : List.Forall₂ (fun n g => ∃ u, n.unclosed? = some u ∧ g.unclosed? = some u)
      (ns.filter (·.unclosed?.isSome)) gs)
    (hplaces : ((Nodes.unclosed ns).map Prod.snd).Pairwise
      fun t u => (t.line, t.column) ≠ (u.line, u.column)) :
    (gs.map Fault.diagnostic).Nodup := by
  have hnotes : ∀ {ms : List Node} {gs : List Fault},
      List.Forall₂ (fun n g => ∃ u, n.unclosed? = some u ∧ g.unclosed? = some u) ms gs →
        gs.map (·.diagnostic.notes) =
          ((Nodes.unclosed ms).map Prod.snd).map fun t => [openedNote t] := by
    intro ms gs h
    induction h with
    | nil => rfl
    | cons hu _ ih =>
        obtain ⟨u, hn, hg⟩ := hu
        have := (tellsUnclosed_diagnostic hg).2.1
        simp_all [Nodes.unclosed]
  have hfilter : Nodes.unclosed (ns.filter (·.unclosed?.isSome)) = Nodes.unclosed ns := by
    rw [Nodes.unclosed, List.filterMap_filter]
    exact List.filterMap_congr fun n _ => by cases n.unclosed? <;> simp
  refine List.Nodup.of_map Diagnostic.notes ?_
  have hmap := hnotes hpair
  rw [hfilter] at hmap
  rw [List.map_map, Function.comp_def, hmap, List.Nodup, List.pairwise_map]
  exact hplaces.imp fun hne hnote => hne (openedNote_inj (List.singleton_injective hnote))

/-- Without errors a tree is complete. Where no expression was given up for its depth,
each open construct has a diagnostic of its own, no two of them alike, with the place of
the token that opened it. -/
theorem incomplete_reported (source file : String) :
    ((∃ n ∈ (Parsed.ofSource source file).program.nodes, n.isIncomplete = true) →
        (Parsed.ofSource source file).isOk = false) ∧
      (¬(Parsed.ofSource source file).TooDeep →
        ∃ ds, ds <+ (Parsed.ofSource source file).diagnostics ∧ ds.Nodup ∧
          List.Forall₂
            (fun n d => ∃ k opener, n.unclosed? = some (k, opener) ∧ d.TellsUnclosed k opener)
            ((Parsed.ofSource source file).program.nodes.filter (·.unclosed?.isSome)) ds) := by
  obtain ⟨hplaces, hpaid⟩ := Grammar.unclosed_program source file
  generalize Parsed.ofSource source file = p at *
  have herror : (∃ f ∈ p.faults, f.isError = true) → p.isOk = false := by
    rintro ⟨f, hf, he⟩
    rw [Parsed.isOk, List.all_eq_false]
    exact ⟨f.diagnostic, List.mem_map_of_mem hf, by simp [Fault.isError_diagnostic, he]⟩
  constructor
  · rintro ⟨n, hn, hi⟩
    rcases hpaid with ⟨t, ht⟩ | hpays
    · exact herror ⟨_, ht, rfl⟩
    rcases Bool.or_eq_true _ _ ▸ hi with hp | hu
    · exact herror (List.any_eq_true.mp (hpays.placeholders (List.any_eq_true.mpr ⟨n, hn, hp⟩)))
    · obtain ⟨u, hu⟩ := Option.isSome_iff_exists.mp hu
      have hmem := hpays.unclosed.subset (List.mem_filterMap.mpr ⟨n, hn, hu⟩)
      obtain ⟨f, hf, hfu⟩ := List.mem_filterMap.mp hmem
      refine herror ⟨f, hf, ?_⟩
      cases f <;> first | rfl | simp [Fault.unclosed?] at hfu
  · intro hdeep
    obtain ⟨gs, hgs, hpair⟩ := exists_unclosed_faults (hpaid.resolve_left hdeep)
    refine ⟨gs.map Fault.diagnostic, hgs.map _, nodup_diagnostics hpair hplaces, ?_⟩
    rw [List.forall₂_map_right_iff]
    refine hpair.imp fun n g hu => ?_
    obtain ⟨⟨k, opener⟩, hn, hg⟩ := hu
    exact ⟨k, opener, hn, tellsUnclosed_diagnostic hg⟩

end Clipper
