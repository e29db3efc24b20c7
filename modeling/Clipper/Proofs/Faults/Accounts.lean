import Clipper.Proofs.Faults.Nodes
import Clipper.Proofs.Reading.Text
import Mathlib.Data.List.Perm.Subperm

/-!
How reading accounts for the incomplete nodes it makes. Each open construct has been
opened by a token taken on the way and has left a fault of its own, in the order of the
nodes; a placeholder is never made without an error. Both may fail only where an
expression was given up for its depth.
-/

open scoped List

namespace Clipper

namespace Fault

/-- The closing word that is missing, and the token that opened what it would close. -/
def unclosed? : Fault → Option (Keyword × Token)
  | unclosed closer opener _ => (Keyword.all.find? (·.canonical == closer)).map (·, opener)
  | _ => none

/-- Everything but the warning about a repeated counter is an error. -/
def isError : Fault → Bool
  | otherCounter _ _ => false
  | _ => true

theorem isError_diagnostic (f : Fault) : f.diagnostic.isError = f.isError := by
  cases f <;> rfl

theorem unclosed?_unclosed (k : Keyword) (opener found : Token) :
    (unclosed k.canonical opener found).unclosed? = some (k, opener) := by
  have h : Keyword.all.find? (·.canonical == k.canonical) = some k := by cases k <;> decide
  simp [unclosed?, h]

end Fault

/-- The open constructs among some nodes. -/
def Nodes.unclosed (ns : List Node) : List (Keyword × Token) := ns.filterMap Node.unclosed?

theorem Nodes.unclosed_append (ns ms : List Node) :
    unclosed (ns ++ ms) = unclosed ns ++ unclosed ms := List.filterMap_append

namespace Reader

/-- The faults found between two readers pay for the nodes: one for each open construct,
and an error if there is a placeholder. -/
structure Pays (fs : List Fault) (ns : List Node) : Prop where
  unclosed : Nodes.unclosed ns <+ fs.filterMap Fault.unclosed?
  placeholders : ns.any Node.isPlaceholder = true → fs.any Fault.isError = true

/-- What has been read from `r` to `r'` has left these nodes, each accounted for. -/
structure Accounts (r : Reader) (ns : List Node) (r' : Reader) : Prop where
  onward : r.Onward r'
  taken : ∃ ts, r.pending = ts ++ r'.pending ∧ (Nodes.unclosed ns).map Prod.snd <+~ ts
  paid : r'.TooDeep ∨ ∃ fs, r'.faults.toList = r.faults.toList ++ fs ∧ Pays fs ns

variable {r r' r'' : Reader} {ns ms : List Node}

theorem Pays.append {fs gs : List Fault} (h : Pays fs ns) (h' : Pays gs ms) :
    Pays (fs ++ gs) (ns ++ ms) where
  unclosed := by
    rw [Nodes.unclosed_append, List.filterMap_append]
    exact h.unclosed.append h'.unclosed
  placeholders := by
    simp only [List.any_append, Bool.or_eq_true]
    exact Or.imp h.placeholders h'.placeholders

namespace Accounts

theorem of_onward (h : r.Onward r') : r.Accounts [] r' where
  onward := h
  taken := by
    obtain ⟨ts, hts⟩ := h.pending
    exact ⟨ts, hts.symm, List.nil_subperm⟩
  paid := by
    obtain ⟨fs, hfs⟩ := h.faults
    exact .inr ⟨fs, hfs.symm, ⟨List.nil_sublist _, by simp⟩⟩

theorem refl (hr : r.Sound) : r.Accounts [] r := of_onward (.refl hr)

theorem trans (h : r.Accounts ns r') (h' : r'.Accounts ms r'') : r.Accounts (ns ++ ms) r'' where
  onward := h.onward.trans h'.onward
  taken := by
    obtain ⟨ts, hts, hsub⟩ := h.taken
    obtain ⟨us, hus, hsub'⟩ := h'.taken
    refine ⟨ts ++ us, by rw [hts, hus, List.append_assoc], ?_⟩
    rw [Nodes.unclosed_append, List.map_append]
    exact hsub.append hsub'
  paid := by
    rcases h.paid with hd | ⟨fs, hfs, hpays⟩
    · exact .inl (h'.onward.tooDeep hd)
    rcases h'.paid with hd | ⟨gs, hgs, hpays'⟩
    · exact .inl hd
    · exact .inr ⟨fs ++ gs, by rw [hgs, hfs, List.append_assoc], hpays.append hpays'⟩

theorem onward_left (h : r.Onward r') (h' : r'.Accounts ns r'') : r.Accounts ns r'' :=
  (of_onward h).trans h'

theorem onward_right (h : r.Accounts ns r') (h' : r'.Onward r'') : r.Accounts ns r'' := by
  simpa using h.trans (of_onward h')

/-- Only the open constructs and the placeholders among the nodes matter. -/
theorem weaken (h : r.Accounts ns r') (hunclosed : Nodes.unclosed ms <+ Nodes.unclosed ns)
    (hplaceholders : ms.any Node.isPlaceholder = true → ns.any Node.isPlaceholder = true) :
    r.Accounts ms r' where
  onward := h.onward
  taken := by
    obtain ⟨ts, hts, hsub⟩ := h.taken
    exact ⟨ts, hts, (hunclosed.map _).subperm.trans hsub⟩
  paid := h.paid.imp id fun ⟨fs, hfs, hpays⟩ =>
    ⟨fs, hfs, ⟨hunclosed.trans hpays.unclosed, fun hp => hpays.placeholders (hplaceholders hp)⟩⟩

/-- A complete node costs nothing. -/
theorem concat (h : r.Accounts ns r') {n : Node} (hunclosed : n.unclosed? = none)
    (hplaceholder : n.isPlaceholder = false) : r.Accounts (ns ++ [n]) r' :=
  h.weaken (by simp [Nodes.unclosed, hunclosed]) (by simp [hplaceholder])

theorem cons (h : r.Accounts ns r') {n : Node} (hunclosed : n.unclosed? = none)
    (hplaceholder : n.isPlaceholder = false) : r.Accounts (n :: ns) r' :=
  h.weaken (by simp [Nodes.unclosed, hunclosed]) (by simp [hplaceholder])

end Accounts

/-- Something has been given up between the two readers, and an error says so. -/
structure GivesUp (r r' : Reader) : Prop where
  onward : r.Onward r'
  error : r'.TooDeep ∨
    ∃ fs, r'.faults.toList = r.faults.toList ++ fs ∧ fs.any Fault.isError = true

namespace GivesUp

theorem onward_left (h : r.Onward r') (h' : r'.GivesUp r'') : r.GivesUp r'' where
  onward := h.trans h'.onward
  error := by
    obtain ⟨gs, hgs⟩ := h.faults
    refine h'.error.imp id fun ⟨fs, hfs, he⟩ => ⟨gs ++ fs, ?_, ?_⟩
    · rw [hfs, ← hgs, List.append_assoc]
    · rw [List.any_append, he, Bool.or_true]

theorem onward_right (h : r.GivesUp r') (h' : r'.Onward r'') : r.GivesUp r'' where
  onward := h.onward.trans h'
  error := by
    obtain ⟨gs, hgs⟩ := h'.faults
    rcases h.error with hd | ⟨fs, hfs, he⟩
    · exact .inl (h'.tooDeep hd)
    · exact .inr ⟨fs ++ gs, by rw [← hgs, hfs, List.append_assoc], by simp [he]⟩

theorem reported (hr : r.Sound) {f : Fault} (hf : f.isError = true)
    (hillegal : f.illegal? = none) : r.GivesUp (r.reported f) := by
  have ho := onward_reported hr f hillegal
  refine ⟨ho, ?_⟩
  by_cases hm : r.muted = true
  · exact .inl (ho.tooDeep (hr.muted_deep hm))
  · exact .inr ⟨[f], by simp [Reader.reported, hm], by simpa using hf⟩

/-- The error pays for the placeholder that is left. -/
theorem accounts (h : r.GivesUp r') {n : Node} (hunclosed : n.unclosed? = none) :
    r.Accounts [n] r' where
  onward := h.onward
  taken := by
    obtain ⟨ts, hts⟩ := h.onward.pending
    exact ⟨ts, hts.symm, by simp [Nodes.unclosed, hunclosed]⟩
  paid := h.error.imp id fun ⟨fs, hfs, he⟩ =>
    ⟨fs, hfs, ⟨by simp [Nodes.unclosed, hunclosed], fun _ => he⟩⟩

end GivesUp

namespace Accounts

/-- A construct that a token opens and that is left without its closing word. -/
theorem opened (hr : r.Sound) (hend : r.atEnd = false) (h : r.advanced.Accounts ns r')
    {k : Keyword} {closing : Option Token}
    (hc : Grammar.Run (Grammar.closing k r.current) r' closing r'')
    {n : Node} (hunclosed : n.unclosed? = if closing.isNone then some (k, r.current) else none)
    (hplaceholder : n.isPlaceholder = false) : r.Accounts (ns ++ [n]) r'' := by
  have ha := onward_advanced hr
  have hs := h.onward.sound
  rw [Grammar.run_closing] at hc
  split at hc
  · obtain ⟨rfl, rfl⟩ := hc
    exact (onward_left ha (h.onward_right (onward_advanced hs))).concat (by simpa using hunclosed)
      hplaceholder
  · obtain ⟨rfl, rfl⟩ := hc
    have hn : n.unclosed? = some (k, r.current) := by simpa using hunclosed
    have hnodes : Nodes.unclosed (ns ++ [n]) = Nodes.unclosed ns ++ [(k, r.current)] := by
      simp [Nodes.unclosed, hn]
    have ho := onward_reported hs (.unclosed k.canonical r.current r'.current) rfl
    refine ⟨ha.trans (h.onward.trans ho), ?_, ?_⟩
    · obtain ⟨ts, hts, hsub⟩ := h.taken
      refine ⟨r.current :: ts, ?_, ?_⟩
      · rw [pending_eq_cons hr hend, hts, pending_reported, List.cons_append]
      · rw [hnodes, List.map_append]
        refine List.Subperm.trans ?_ (List.perm_append_singleton r.current ts).subperm
        exact hsub.append (List.Subperm.refl _)
    · rcases h.paid with hd | ⟨fs, hfs, hpays⟩
      · exact .inl (ho.tooDeep hd)
      by_cases hm : r'.muted = true
      · exact .inl (ho.tooDeep (hs.muted_deep hm))
      obtain ⟨gs, hgs⟩ := ha.faults
      refine .inr ⟨gs ++ fs ++ [.unclosed k.canonical r.current r'.current], ?_, ?_, ?_⟩
      · simp [reported, hm, hfs, ← hgs]
      · rw [hnodes, List.append_assoc, List.filterMap_append, List.filterMap_append]
        refine List.Sublist.trans ?_ (List.sublist_append_right _ _)
        refine hpays.unclosed.append ?_
        simp [Fault.unclosed?_unclosed]
      · simp [Fault.isError]

end Accounts

end Reader

end Clipper
