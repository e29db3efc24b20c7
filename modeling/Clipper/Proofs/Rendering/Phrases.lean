import Clipper.Proofs.Content.Phrases
import Clipper.Proofs.Rendering.Leaves
import Clipper.Proofs.Rendering.Legible

/-!
What the grammar derives is a tree that a text can have, by induction on how it is derived, if the
tokens that it keeps the text of can be written again.
-/

namespace Clipper

/-- The tokens from here on can be written again. -/
def Spot.Writable (s : Spot) : Prop := ∀ t ∈ s.rest, t.Writable

namespace Grammar

open Canonical

variable {s s' s'' : Spot} {t : Token} {l l' : Nat} {u : List Token}

theorem writable_tail (h : (⟨l', t :: u⟩ : Spot).Writable) : (⟨l, u⟩ : Spot).Writable :=
  fun t' ht => h t' (List.mem_cons_of_mem _ ht)

theorem writable_head (h : (⟨l, t :: u⟩ : Spot).Writable) : t.Writable := h t List.mem_cons_self

theorem named_head (h : (⟨l, t :: u⟩ : Spot).Writable) (ht : t.kind = .identifier) :
    Named ⟨t⟩ := by
  have := (writable_head h).plain (by rw [ht]; rfl)
  rwa [ht] at this

theorem Names.writable {ns : List Name} (h : Names ns s s') (hs : s.Writable) :
    (∀ n ∈ ns, Named n) ∧ s'.Writable := by
  induction h with
  | last ht _ => exact ⟨by simpa using named_head hs ht, writable_tail hs⟩
  | more ht _ _ ih =>
      obtain ⟨hns, hs'⟩ := ih (writable_tail (writable_tail (l := 0) hs))
      exact ⟨List.forall_mem_cons.mpr ⟨named_head hs ht, hns⟩, hs'⟩

theorem Parameters.writable {ns : List Name} (h : Parameters ns s s') (hs : s.Writable) :
    (∀ n ∈ ns, Named n) ∧ s'.Writable := by
  cases h with
  | absent _ => exact ⟨by simp, hs⟩
  | empty _ _ _ => exact ⟨by simp, writable_tail (writable_tail (l := 0) hs)⟩
  | names _ _ hnames _ =>
      obtain ⟨hns, hs'⟩ := hnames.writable (writable_tail hs)
      exact ⟨hns, writable_tail hs'⟩

theorem Closing.writable {k : Keyword} {closed : Option Token} (h : Closing k closed s s')
    (hs : s.Writable) : s'.Writable := by
  cases h with
  | absent _ => exact hs
  | word _ => exact writable_tail hs

theorem Parent.writable {parent : Option Name} (h : Parent parent s s') (hs : s.Writable) :
    (∀ p ∈ parent, Named p) ∧ s'.Writable := by
  cases h with
  | absent _ => exact ⟨by simp, hs⟩
  | named _ ht =>
      have hname := writable_tail (l := 0) hs
      exact ⟨by simpa using named_head hname ht, writable_tail hname⟩

theorem LoopWord.writable (h : LoopWord t s s') (hs : s.Writable) : s'.Writable := by
  cases h with
  | «while» _ => exact writable_tail hs
  | doWhile _ _ => exact writable_tail (writable_tail (l := 0) hs)

theorem CounterAgain.writable {lax : Bool} (h : CounterAgain lax t s s') (hs : s.Writable) :
    s'.Writable := by
  cases h with
  | absent _ => exact hs
  | named _ _ _ => exact writable_tail hs

theorem kind_of_member {k : TokenKind} (h : Link.ofKind? k = some .member) :
    k = .punctuation .colon := by
  cases k with
  | operator o => cases o <;> cases h
  | punctuation p =>
      cases p <;> cases h
      rfl
  | _ => cases h

/-- A text can have a declared name and its value. -/
def LegibleDeclarator (r : Bool) (d : Name × Option Expr) : Prop :=
  Named d.1 ∧ ∀ x ∈ d.2, Part.Legible r (.expression x)

def LegibleMember : Member → Prop
  | .data x => Named x.name
  | .method x => Part.Legible true (.routine x)

/-- A text can have what is derived. Links take up what stands before them. -/
def Phrase.Legible : Phrase → Prop
  | expression c _ x | operand c x => Part.Legible c.inRoutine (.expression x)
  | links c _ _ left x =>
      Part.Legible c.inRoutine (.expression left) → Part.Legible c.inRoutine (.expression x)
  | expressions c xs | arguments c _ xs => ∀ x ∈ xs, Part.Legible c.inRoutine (.expression x)
  | step c x => ∀ y ∈ x, Part.Legible c.inRoutine (.expression y)
  | guarded c _ g => Part.Legible c.inRoutine (.guarded g)
  | branches c gs => ∀ g ∈ gs, Part.Legible c.inRoutine (.guarded g)
  | alternative c other => ∀ b ∈ other, Part.Legible c.inRoutine (.block b)
  | block c b => Part.Legible c.inRoutine (.block b)
  | statements c ss | statement c ss => ∀ s ∈ ss, Part.Legible c.inRoutine (.statement s)
  | declarator c d => LegibleDeclarator c.inRoutine d
  | declarators c ds => ∀ d ∈ ds, LegibleDeclarator c.inRoutine d
  | routine _ _ _ x => Part.Legible true (.routine x)
  | members _ ms | member _ ms => ∀ m ∈ ms, LegibleMember m

theorem legible_members {ms : List Member} (h : ∀ m ∈ ms, LegibleMember m) :
    (∀ x ∈ ms.filterMap Member.attribute?, Named x.name) ∧
      ∀ x ∈ ms.filterMap Member.method?, Part.Legible true (.routine x) := by
  induction ms with
  | nil => simp
  | cons m ms ih =>
      rw [List.forall_mem_cons] at h
      obtain ⟨hxs, hrs⟩ := ih h.2
      cases m with
      | data x => exact ⟨List.forall_mem_cons.mpr ⟨h.1, hxs⟩, hrs⟩
      | method r => exact ⟨hxs, List.forall_mem_cons.mpr ⟨h.1, hrs⟩⟩

theorem legible_name {r : Bool} (ht : t.kind = .identifier ∨ t.kind = .keyword .kwSelf)
    (hs : (⟨l, t :: u⟩ : Spot).Writable) : Part.Legible r (.expression (.name ⟨t⟩)) := by
  rcases ht with ht | ht
  · exact .name (by simp [Token.isKeyword, ht]) (named_head hs ht)
  · refine .receiver (by simp [Token.isKeyword, ht]) ?_
    rw [Name.isSelf, Name.text, (writable_head hs).receiver ht]
    rfl

theorem forall_mem_some {α : Type} {q : α → Prop} {x : α} (h : q x) : ∀ y ∈ some x, q y := by
  rintro _ ⟨⟩
  exact h

theorem Derives.legible {lax : Bool} {m : Nat} {p : Phrase} (h : Derives lax m p s s')
    (hs : s.Writable) : p.Legible ∧ s'.Writable := by
  induction h with
  | expression _ _ ihoperand ihlinks =>
      obtain ⟨hleft, hs⟩ := ihoperand hs
      obtain ⟨hlinks, hs⟩ := ihlinks hs
      exact ⟨hlinks hleft, hs⟩
  | name ht => exact ⟨legible_name ht hs, writable_tail hs⟩
  | integer ht hbound =>
      have hplain := (writable_head hs).plain (by rw [ht]; rfl)
      exact ⟨.integer (ht ▸ hplain) hbound, writable_tail hs⟩
  | float ht hbits =>
      have hplain := (writable_head hs).plain (by rw [ht]; rfl)
      exact ⟨.float (ht ▸ hplain) hbits, writable_tail hs⟩
  | date ht =>
      have hplain := (writable_head hs).plain (by rw [ht]; rfl)
      exact ⟨.date (ht ▸ hplain), writable_tail hs⟩
  | string ht =>
      have hwritable := writable_head hs
      exact ⟨.string (hwritable.delimiter ht) (hwritable.body ht), writable_tail hs⟩
  | boolean _ => exact ⟨.boolean, writable_tail hs⟩
  | nil _ => exact ⟨.nil, writable_tail hs⟩
  | unary _ _ ih =>
      obtain ⟨hx, hs⟩ := ih (writable_tail hs)
      exact ⟨.unary hx, hs⟩
  | group _ _ _ ih =>
      obtain ⟨hx, hs⟩ := ih (writable_tail hs)
      exact ⟨hx, writable_tail hs⟩
  | array _ _ ih =>
      obtain ⟨hxs, hs⟩ := ih (writable_tail hs)
      exact ⟨.array hxs, hs⟩
  | ownMember ht hn =>
      have hs := writable_tail (l := 0) hs
      exact ⟨.ownMember ht (Name.isSelf_implied _) (named_head hs hn), writable_tail hs⟩
  | branch _ _ _ _ _ ihfirst ihothers ihother =>
      obtain ⟨hfirst, hs⟩ := ihfirst (writable_tail hs)
      obtain ⟨hothers, hs⟩ := ihothers hs
      obtain ⟨hother, hs⟩ := ihother hs
      exact ⟨.branch hfirst hothers hother, writable_tail hs⟩
  | whileLoop hword _ _ ih =>
      obtain ⟨hg, hs⟩ := ih (hword.writable hs)
      exact ⟨.whileLoop hg, writable_tail hs⟩
  | forLoop _ hn _ _ _ _ _ _ _ hagain iha ihb ihstep ihbl =>
      have hname := writable_tail (l := 0) hs
      obtain ⟨ha, hs⟩ := iha (writable_tail (writable_tail (l := 0) hname))
      obtain ⟨hb, hs⟩ := ihb (writable_tail hs)
      obtain ⟨hstep, hs⟩ := ihstep hs
      obtain ⟨hbl, hs⟩ := ihbl hs
      exact ⟨.forLoop (named_head hname hn) ha hb hstep hbl, hagain.writable (writable_tail hs)⟩
  | stop _ => exact ⟨id, hs⟩
  | binary _ _ _ ihy ihx =>
      obtain ⟨hy, hs⟩ := ihy (writable_tail hs)
      obtain ⟨hx, hs⟩ := ihx hs
      exact ⟨fun hleft => hx (.binary hleft hy), hs⟩
  | assign _ hassign _ _ ihy ihx =>
      obtain ⟨hy, hs⟩ := ihy (writable_tail hs)
      obtain ⟨hx, hs⟩ := ihx hs
      exact ⟨fun hleft => hx (.assign hassign hleft hy), hs⟩
  | call _ _ _ ihxs ihx =>
      obtain ⟨hxs, hs⟩ := ihxs (writable_tail hs)
      obtain ⟨hx, hs⟩ := ihx hs
      exact ⟨fun hleft => hx (.call hleft hxs), hs⟩
  | index _ _ _ ihi ihx | subscript _ _ _ ihi ihx =>
      obtain ⟨hi, hs⟩ := ihi (writable_tail hs)
      obtain ⟨hx, hs⟩ := ihx hs
      exact ⟨fun hleft => hx (.index hleft hi), hs⟩
  | closeIndex _ _ ihx => exact ihx (writable_tail hs)
  | member hlink hn _ ihx =>
      have hname := writable_tail (l := 0) hs
      obtain ⟨hx, hs⟩ := ihx (writable_tail hname)
      have hcolon := kind_of_member (ofKind?_of_link? hlink)
      refine ⟨fun hleft => hx (.member ?_ hleft (named_head hname hn)), hs⟩
      simp [Token.isPunctuation, hcolon]
  | lastExpression _ _ ih =>
      obtain ⟨hx, hs⟩ := ih hs
      exact ⟨List.forall_mem_singleton.mpr hx, hs⟩
  | moreExpressions _ _ _ ih ihxs =>
      obtain ⟨hx, hs⟩ := ih hs
      obtain ⟨hxs, hs⟩ := ihxs (writable_tail hs)
      exact ⟨List.forall_mem_cons.mpr ⟨hx, hxs⟩, hs⟩
  | noArguments _ => exact ⟨by simp [Phrase.Legible], writable_tail hs⟩
  | arguments _ _ _ ih =>
      obtain ⟨hxs, hs⟩ := ih hs
      exact ⟨hxs, writable_tail hs⟩
  | noStep _ => exact ⟨by simp [Phrase.Legible], hs⟩
  | step _ _ ih =>
      obtain ⟨hx, hs⟩ := ih (writable_tail hs)
      exact ⟨forall_mem_some hx, hs⟩
  | guarded _ _ ihx ihb =>
      obtain ⟨hx, hs⟩ := ihx hs
      obtain ⟨hbl, hs⟩ := ihb hs
      exact ⟨.guarded hx hbl, hs⟩
  | noBranches _ => exact ⟨by simp [Phrase.Legible], hs⟩
  | branches _ _ _ ihg ihgs =>
      obtain ⟨hg, hs⟩ := ihg (writable_tail hs)
      obtain ⟨hgs, hs⟩ := ihgs hs
      exact ⟨List.forall_mem_cons.mpr ⟨hg, hgs⟩, hs⟩
  | noAlternative _ => exact ⟨by simp [Phrase.Legible], hs⟩
  | alternative _ _ ih =>
      obtain ⟨hbl, hs⟩ := ih (writable_tail hs)
      exact ⟨forall_mem_some hbl, hs⟩
  | block _ ih =>
      obtain ⟨hss, hs⟩ := ih hs
      exact ⟨.block hss, hs⟩
  | noStatements _ => exact ⟨by simp [Phrase.Legible], hs⟩
  | statements _ _ _ ihs ihss =>
      obtain ⟨hstmt, hs⟩ := ihs hs
      obtain ⟨hss, hs⟩ := ihss hs
      exact ⟨List.forall_mem_append.mpr ⟨hstmt, hss⟩, hs⟩
  | variableList _ _ _ ih =>
      obtain ⟨hds, hs⟩ := ih (writable_tail hs)
      exact ⟨List.forall_mem_map.mpr fun d hd => .variable (hds d hd).1 (hds d hd).2, hs⟩
  | returnNothing _ _ =>
      exact ⟨List.forall_mem_singleton.mpr (.ret (by simp)), writable_tail hs⟩
  | returnValue _ _ _ _ ih =>
      obtain ⟨hx, hs⟩ := ih (writable_tail hs)
      exact ⟨List.forall_mem_singleton.mpr (.ret (forall_mem_some hx)), hs⟩
  | value _ _ ih =>
      obtain ⟨hx, hs⟩ := ih hs
      exact ⟨List.forall_mem_singleton.mpr (.value hx), hs⟩
  | function hc _ _ ih =>
      obtain ⟨hr, hs⟩ := ih (writable_tail hs)
      refine ⟨List.forall_mem_singleton.mpr ?_, hs⟩
      exact hc ▸ .function hr
  | staticFunction hc _ _ _ ih =>
      obtain ⟨hr, hs⟩ := ih (writable_tail (writable_tail (l := 0) hs))
      refine ⟨List.forall_mem_singleton.mpr ?_, hs⟩
      exact hc ▸ .function hr
  | classDef hc _ hn hparent _ _ ih =>
      have hname := writable_tail (l := 0) hs
      obtain ⟨hparent, hs⟩ := hparent.writable (writable_tail hname)
      obtain ⟨hms, hs⟩ := ih hs
      obtain ⟨hxs, hrs⟩ := legible_members hms
      refine ⟨List.forall_mem_singleton.mpr ?_, writable_tail hs⟩
      exact hc ▸ .classDef (named_head hname hn) hparent hxs hrs
  | declared hn _ => exact ⟨⟨named_head hs hn, by simp⟩, writable_tail hs⟩
  | initialized hn _ _ ih =>
      obtain ⟨hx, hs'⟩ := ih (writable_tail (writable_tail (l := 0) hs))
      exact ⟨⟨named_head hs hn, forall_mem_some hx⟩, hs'⟩
  | lastDeclarator _ _ ih =>
      obtain ⟨hd, hs⟩ := ih hs
      exact ⟨List.forall_mem_singleton.mpr hd, hs⟩
  | moreDeclarators _ _ _ ih ihds =>
      obtain ⟨hd, hs⟩ := ih hs
      obtain ⟨hds, hs⟩ := ihds (writable_tail hs)
      exact ⟨List.forall_mem_cons.mpr ⟨hd, hds⟩, hs⟩
  | routine hn hps _ hclose ih =>
      obtain ⟨hns, hs'⟩ := hps.writable (writable_tail hs)
      obtain ⟨hbl, hs'⟩ := ih hs'
      exact ⟨.routine (named_head hs hn) hns hbl, hclose.writable hs'⟩
  | noMembers _ => exact ⟨by simp [Phrase.Legible], hs⟩
  | members _ _ ihm ihms =>
      obtain ⟨hm, hs⟩ := ihm hs
      obtain ⟨hms, hs⟩ := ihms hs
      exact ⟨List.forall_mem_append.mpr ⟨hm, hms⟩, hs⟩
  | attributes _ hns _ =>
      obtain ⟨hns, hs⟩ := hns.writable (writable_tail hs)
      exact ⟨List.forall_mem_map.mpr hns, hs⟩
  | method _ _ ih =>
      obtain ⟨hr, hs⟩ := ih (writable_tail hs)
      exact ⟨List.forall_mem_singleton.mpr hr, hs⟩

end Grammar

end Clipper
