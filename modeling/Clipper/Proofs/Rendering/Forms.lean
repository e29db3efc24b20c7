import Clipper.Proofs.Rendering.Declarations

/-!
The canonical form of every part of a tree, written and read again: for each part there are elements
that its pieces make and that are read as the same part.
-/

namespace Clipper

namespace Canonical

open Lexeme Layout Grammar

variable {style : Style} {r : Bool} {t : Token} {x y : Expr} {n : Name} {ns : List Name}
  {b : Block} {g : Guarded} {gs : List Guarded} {s : Stmt} {ss : List Stmt}

/-! ### Blocks -/

/-- The statement is read from its canonical form. It is much the same for the other parts. -/
def RereadsStmt (style : Style) (r : Bool) (s : Stmt) : Prop :=
  ∃ is, Stands style r (stmt s) is ∧ Line r is s

def RereadsBlock (style : Style) (r : Bool) (b : Block) : Prop :=
  ∃ is, Tells style .fresh .fresh (block b) is ∧ Paragraph r is b.statements

theorem exists_stmts (h : ∀ s ∈ ss, RereadsStmt style r s) :
    ∃ is, Tells style .fresh .fresh (stmts ss) is ∧ Paragraph r is ss := by
  induction ss with
  | nil => exact ⟨[], .refl .fresh, paragraph_nil⟩
  | cons s ss ih =>
      rw [List.forall_mem_cons] at h
      obtain ⟨is, his, hs⟩ := h.1
      obtain ⟨js, hjs, hss⟩ := ih h.2
      exact ⟨_, his.tells.fresh.append (tells_endLine.append hjs), hss.cons his.starts hs⟩

theorem rereads_block (h : ∀ s ∈ ss, RereadsStmt style r s) : RereadsBlock style r ⟨t, ss⟩ := by
  obtain ⟨is, his, hss⟩ := exists_stmts h
  exact ⟨is, tells_indented his, hss⟩

theorem tells_word_space (k : Keyword) :
    Tells style .free .free [.keyword k, space] [.word (reserved style k)] :=
  (tells_keyword k).append tells_space

/-! ### Conditionals -/

def RereadsGuarded (style : Style) (r : Bool) (g : Guarded) : Prop :=
  ∃ is, (∀ opener, Tells style .free .fresh (guarded opener g)
    (.word (reserved style opener) :: is)) ∧ Guards r is g

def RereadsBranches (style : Style) (r : Bool) (gs : List Guarded) : Prop :=
  ∃ is, Tells style .fresh .fresh (elseIfs gs) is ∧ Branching r is gs

def RereadsAlternative (style : Style) (r : Bool) (other : Option Block) : Prop :=
  ∃ is, Tells style .fresh .fresh (elseBlock other) is ∧ Otherwise r is other

theorem rereads_guarded (hx : Rereads style r x) (hb : RereadsBlock style r b) :
    RereadsGuarded style r ⟨t, x, b⟩ := by
  obtain ⟨t', ss⟩ := b
  obtain ⟨is, his, hx⟩ := hx.alone
  obtain ⟨js, hjs, hb⟩ := hb
  refine ⟨is ++ .lineEnd :: js, fun opener => ?_, hx.guards hb⟩
  exact ((tells_word_space opener).append his.tells).append (tells_newline.append hjs)

theorem rereads_branches (h : ∀ g ∈ gs, RereadsGuarded style r g) :
    RereadsBranches style r gs := by
  induction gs with
  | nil => exact ⟨[], .refl .fresh, branching_nil⟩
  | cons g gs ih =>
      rw [List.forall_mem_cons] at h
      obtain ⟨is, his, hg⟩ := h.1
      obtain ⟨js, hjs, hgs⟩ := ih h.2
      exact ⟨_, (his .kwElseIf).fresh.append hjs, hg.branching hgs⟩

theorem rereads_alternative {other : Option Block} (h : ∀ b ∈ other, RereadsBlock style r b) :
    RereadsAlternative style r other := by
  cases other with
  | none => exact ⟨[], .refl .fresh, otherwise_none⟩
  | some b =>
      obtain ⟨t, ss⟩ := b
      obtain ⟨is, his, hss⟩ := h _ rfl
      exact ⟨_, (tells_keyword .kwElse).fresh.append (tells_newline.append his), hss.otherwise⟩

theorem rereads_branch {other : Option Block} {closing : Option Token}
    (hg : RereadsGuarded style r g) (hgs : RereadsBranches style r gs)
    (ho : RereadsAlternative style r other) : Rereads style r (.branch g gs other closing) := by
  obtain ⟨is, his, hg⟩ := hg
  obtain ⟨js, hjs, hgs⟩ := hgs
  obtain ⟨os, hos, ho⟩ := ho
  have hall := (((his .kwIf).append hjs).append hos).append (tells_keyword .kwEndIf).fresh
  exact rereads_of_tight (fun nested => ⟨hall, starts_word rfl (by simp [reserved])⟩)
    fun nested => tight_branch hg hgs ho

/-! ### Loops -/

def RereadsStep (style : Style) (r : Bool) (step : Option Expr) : Prop :=
  ∃ is, Tells style .behind .behind (stepClause step) is ∧ Stepping r is step

theorem rereads_whileLoop {closing : Option Token} (hg : RereadsGuarded style r g) :
    Rereads style r (.whileLoop g closing) := by
  obtain ⟨is, his, hg⟩ := hg
  have hall := (his .kwWhile).append (tells_keyword .kwEndDo).fresh
  exact rereads_of_tight (fun nested => ⟨hall, starts_word rfl (by simp [reserved])⟩)
    fun nested => tight_whileLoop hg

theorem rereads_step {step : Option Expr} (h : ∀ z ∈ step, Rereads style r z) :
    RereadsStep style r step := by
  cases step with
  | none => exact ⟨[], .refl .behind, stepping_none⟩
  | some z =>
      obtain ⟨is, his, hz⟩ := (h z rfl).alone
      exact ⟨_, tells_space.append ((tells_word_space .kwStep).append his.tells), hz.stepping⟩

theorem rereads_forLoop {step : Option Expr} {closing : Option Token} (hn : Named n)
    (hx : Rereads style r x) (hy : Rereads style r y) (hstep : RereadsStep style r step)
    (hb : RereadsBlock style r b) : Rereads style r (.forLoop t n x y step b closing) := by
  obtain ⟨t', ss⟩ := b
  obtain ⟨is, his, hx⟩ := hx.alone
  obtain ⟨js, hjs, hy⟩ := hy.alone
  obtain ⟨zs, hzs, hstep⟩ := hstep
  obtain ⟨bs, hbs, hb⟩ := hb
  have hcounter : Tells style .free .behind _ _ := (tells_word_space .kwFor).append
    ((tells_text hn rfl).append ((tells_operator .assign).append his.tells))
  have hlimit : Tells style .behind .behind _ _ :=
    tells_space.append ((tells_word_space .kwTo).append hjs.tells)
  have hall := (((hcounter.append hlimit).append hzs).append (tells_newline.append hbs)).append
    (tells_keyword .kwNext).fresh
  exact rereads_of_tight (fun nested => ⟨hall, starts_word rfl (by simp [reserved])⟩)
    fun nested => tight_forLoop hx hy hstep hb

/-! ### Statements -/

theorem rereads_value (hx : Rereads style r x) : RereadsStmt style r (.expression t x) := by
  obtain ⟨is, his, hx⟩ := hx.alone
  exact ⟨is, his, hx.value his.starts⟩

theorem rereads_ret {value : Option Expr} (h : ∀ y ∈ value, Rereads style r y) :
    RereadsStmt style r (.ret t value) := by
  cases value with
  | none =>
      exact ⟨_, ⟨tells_keyword .kwReturn, starts_word rfl (by simp [reserved])⟩, line_return⟩
  | some y =>
      obtain ⟨is, his, hy⟩ := (h y rfl).alone
      exact ⟨_, ⟨(tells_word_space .kwReturn).append his.tells,
        starts_word rfl (by simp [reserved])⟩, hy.returned his.starts⟩

theorem leads_storage (st : Storage) : (reserved style (storage st)).1.leads r = true := by
  cases st <;> rfl

theorem rereads_variable {st : Storage} {value : Option Expr} (hn : Named n)
    (h : ∀ y ∈ value, Rereads style r y) : RereadsStmt style r (.variable t st n value) := by
  have hname : Tells style .free .behind [.keyword (storage st), space, .text n.text] _ :=
    (tells_word_space (storage st)).append (tells_text hn rfl)
  cases value with
  | none =>
      exact ⟨_, ⟨hname, starts_word (leads_storage st) (by simp [reserved])⟩, line_declared⟩
  | some y =>
      obtain ⟨is, his, hy⟩ := (h y rfl).alone
      have hall := hname.append ((tells_operator .assign).append his.tells)
      exact ⟨_, ⟨hall, starts_word (leads_storage st) (by simp [reserved])⟩, hy.initialized⟩

/-! ### Declarations -/

theorem exists_parameterNames (h : ∀ m ∈ n :: ns, Named m) :
    ∃ is, Tells style .free .behind (parameterNames (n :: ns)) is ∧ Naming is (n :: ns) := by
  have hcomma : Tells style .behind .free [.text ", "] [.word (marked .comma)] := by
    intro level rest js hrest
    have htwo := tells_comma level rest js hrest
    have hwritten : written style level false (.text ", " :: rest) =
        written style level false (mark .comma :: space :: rest) := by
      rw [written_spelled (spelled_text (by decide)), mark,
        written_spelled (spelled_text (by decide)), written_space]
      simp [Punctuation.canonical]
    simp only [Stance.Permits, List.cons_append, List.nil_append, hwritten] at htwo ⊢
    exact htwo
  induction ns generalizing n with
  | nil => exact ⟨_, tells_text (h n List.mem_cons_self) rfl, naming_last⟩
  | cons m ns ih =>
      rw [List.forall_mem_cons] at h
      obtain ⟨is, his, hms⟩ := ih h.2
      exact ⟨_, (tells_text h.1 rfl).append (hcomma.append his), hms.cons⟩

theorem exists_parameters (h : ∀ m ∈ ns, Named m) :
    ∃ is, Tells style .behind .behind (parameters ns) is ∧ Passing is ns := by
  have hopen : Tells style .behind .within [mark .openParen] [.word (marked .openParen)] :=
    tells_mark rfl (by decide)
  cases ns with
  | nil => exact ⟨_, hopen.append (tells_closing rfl).inside, passing_nil⟩
  | cons n ns =>
      obtain ⟨is, his, hns⟩ := exists_parameterNames h
      exact ⟨_, (hopen.append his.within).append (tells_closing rfl), hns.passing⟩

def RereadsRoutine (style : Style) (closers : List Keyword) (close : Keyword) (x : Routine) :
    Prop :=
  ∃ is, (∀ opener, Tells style .free .behind (routine opener close x)
    (.word (reserved style opener) :: is)) ∧ Routined closers close is x

theorem rereads_routine {closers : List Keyword} {close : Keyword} {closing : Option Token}
    (hn : Named n) (hns : ∀ m ∈ ns, Named m) (hb : RereadsBlock style true b)
    (hclosers : ∀ k ∈ closers, k.leads true = false) (hclose : close ∈ closers) :
    RereadsRoutine style closers close ⟨t, n, ns, b, closing⟩ := by
  obtain ⟨t', ss⟩ := b
  obtain ⟨is, his, hns⟩ := exists_parameters hns
  obtain ⟨js, hjs, hss⟩ := hb
  refine ⟨.word (.identifier, n.text) :: is ++ .lineEnd :: js ++ [.word (reserved style close)],
    fun opener => ?_, hss.routined hns hclosers hclose⟩
  have hhead : Tells style .free .behind _ _ :=
    (tells_word_space opener).append ((tells_text hn rfl).append his)
  exact (hhead.append (tells_newline.append hjs)).append (tells_keyword close).fresh

theorem rereads_function {x : Routine}
    (h : RereadsRoutine style functionClosers .kwEndFunction x) (isStatic : Bool) :
    RereadsStmt style false (.function isStatic x) := by
  obtain ⟨is, his, hx⟩ := h
  cases isStatic with
  | false => exact ⟨_, ⟨his .kwFunction, starts_word rfl (by simp [reserved])⟩, hx.function⟩
  | true =>
      exact ⟨_, ⟨(tells_word_space .kwStatic).append (his .kwFunction),
        starts_word rfl (by simp [reserved])⟩, hx.staticFunction⟩

theorem exists_methods {rs : List Routine}
    (h : ∀ x ∈ rs, RereadsRoutine style methodClosers .kwEndMethod x) :
    ∃ is, Tells style .fresh .fresh (methods rs) is ∧ ClassBody is [] rs := by
  induction rs with
  | nil => exact ⟨[], .refl .fresh, classBody_nil⟩
  | cons x rs ih =>
      rw [List.forall_mem_cons] at h
      obtain ⟨is, his, hx⟩ := h.1
      obtain ⟨js, hjs, hrs⟩ := ih h.2
      exact ⟨_, (his .kwMethod).fresh.append (tells_newline.append hjs), hrs.method hx⟩

theorem exists_members {as : List Attribute} {rs : List Routine} (has : ∀ a ∈ as, Named a.name)
    (hrs : ∀ x ∈ rs, RereadsRoutine style methodClosers .kwEndMethod x) :
    ∃ is, Tells style .fresh .fresh (as.flatMap attributeLine ++ methods rs) is ∧
      ClassBody is as rs := by
  induction as with
  | nil => exact exists_methods hrs
  | cons a as ih =>
      rw [List.forall_mem_cons] at has
      obtain ⟨is, his, h⟩ := ih has.2
      have hline : Tells style .free .fresh (attributeLine a) _ :=
        (tells_word_space .kwData).append ((tells_text has.1 rfl).append tells_newline)
      rw [List.flatMap_cons, List.append_assoc]
      exact ⟨_, hline.fresh.append his, h.attribute⟩

theorem rereads_classDef {parent : Option Name} {as : List Attribute} {rs : List Routine}
    {closing : Option Token} (hn : Named n) (hparent : ∀ p ∈ parent, Named p)
    (has : ∀ a ∈ as, Named a.name)
    (hrs : ∀ x ∈ rs, RereadsRoutine style methodClosers .kwEndMethod x) :
    RereadsStmt style false (.classDef ⟨t, n, parent, as, rs, closing⟩) := by
  obtain ⟨is, his, hmembers⟩ := exists_members has hrs
  obtain ⟨fs, hfs, hderiving⟩ : ∃ fs, Tells style .behind .behind
      (parent.elim [] fun p => [space, .keyword .kwFrom, space, .text p.text]) fs ∧
      Deriving fs parent := by
    cases parent with
    | none => exact ⟨[], .refl .behind, deriving_none⟩
    | some p =>
        exact ⟨_, tells_space.append
          ((tells_word_space .kwFrom).append (tells_text (hparent p rfl) rfl)), deriving_some⟩
  have hhead : Tells style .free .behind _ _ :=
    (tells_word_space .kwClass).append ((tells_text hn rfl).append hfs)
  have hall := (hhead.append (tells_newline.append (tells_indented his))).append
    (tells_keyword .kwEndClass).fresh
  refine ⟨.word (reserved style .kwClass) :: .word (.identifier, n.text) :: fs ++ .lineEnd :: is ++
    [.word (reserved style .kwEndClass)], ⟨?_, starts_word rfl (by simp [reserved])⟩,
    hmembers.classDef hderiving⟩
  show Tells style .free .behind (classDefinition ⟨t, n, parent, as, rs, closing⟩) _
  simpa [classDefinition] using hall

/-! ### A file -/

/-- The statements of a file, each behind the line of another. A gap makes no difference. -/
theorem exists_further (h : ∀ s ∈ ss, RereadsStmt style r s) (s : Stmt) :
    ∃ is, Tells style .behind .fresh (.endLine :: topLevel (some s) ss) (.lineEnd :: is) ∧
      Paragraph r is ss := by
  induction ss generalizing s with
  | nil => exact ⟨[], tells_endLine, paragraph_nil⟩
  | cons s' ss ih =>
      rw [List.forall_mem_cons] at h
      obtain ⟨is, his, hs⟩ := h.1
      obtain ⟨js, hjs, hss⟩ := ih h.2 s'
      refine ⟨_, ?_, hss.cons his.starts hs⟩
      have hrest := his.tells.fresh.append hjs
      rw [topLevel]
      cases (some s).any fun p => p.isDeclaration || s'.isDeclaration with
      | false => exact tells_endLine.append hrest
      | true => exact tells_gap.append hrest

theorem exists_topLevel (h : ∀ s ∈ ss, RereadsStmt style r s) :
    ∃ is, Tells style .fresh .fresh (topLevel none ss) is ∧ Paragraph r is ss := by
  cases ss with
  | nil => exact ⟨[], .refl .fresh, paragraph_nil⟩
  | cons s ss =>
      rw [List.forall_mem_cons] at h
      obtain ⟨is, his, hs⟩ := h.1
      obtain ⟨js, hjs, hss⟩ := exists_further h.2 s
      exact ⟨_, his.tells.fresh.append hjs, hss.cons his.starts hs⟩

/-! ### Every part -/

/-- The part is read from its canonical form. -/
def RereadsPart (style : Style) (r : Bool) : Part → Prop
  | .expression x => Rereads style r x
  | .guarded g => RereadsGuarded style r g
  | .block b => RereadsBlock style r b
  | .statement s => RereadsStmt style r s
  | .routine x => RereadsRoutine style functionClosers .kwEndFunction x ∧
      RereadsRoutine style methodClosers .kwEndMethod x
  | _ => True

theorem rereadsPart {x : Part} (h : x.Legible r) : RereadsPart style r x := by
  induction h with
  | name hself hn => exact rereads_name hself hn
  | receiver hself hn => exact rereads_receiver hself hn
  | integer ht hbound => exact rereads_integer ht hbound
  | float ht hbits => exact rereads_float ht hbits
  | string hd hbody => exact rereads_string hd hbody
  | date ht => exact rereads_date ht
  | boolean => exact rereads_boolean _
  | nil => exact rereads_nil
  | array _ ih => exact rereads_array ih
  | unary _ ih => exact rereads_unary _ ih
  | binary _ _ ihx ihy => exact rereads_binary _ ihx ihy
  | call _ _ ihx ihxs => exact rereads_call ihx ihxs
  | index _ _ ihx ihy => exact rereads_index ihx ihy
  | member ht _ hm ih => exact rereads_member ht ih hm
  | ownMember ht hn hm => exact rereads_ownMember ht hn hm
  | assign hassign _ _ ihx ihy => exact rereads_assign hassign ihx ihy
  | branch _ _ _ ihg ihgs ihother =>
      exact rereads_branch ihg (rereads_branches ihgs) (rereads_alternative ihother)
  | whileLoop _ ih => exact rereads_whileLoop ih
  | forLoop hn _ _ _ _ ihx ihy ihstep ihb =>
      exact rereads_forLoop hn ihx ihy (rereads_step ihstep) ihb
  | guarded _ _ ihx ihb => exact rereads_guarded ihx ihb
  | block _ ih => exact rereads_block ih
  | function _ ih => exact rereads_function ih.1 _
  | classDef hn hparent has _ ih => exact rereads_classDef hn hparent has fun x hx => (ih x hx).2
  | «variable» hn _ ih => exact rereads_variable hn ih
  | ret _ ih => exact rereads_ret ih
  | value _ ih => exact rereads_value ih
  | routine hn hns _ ih =>
      exact ⟨rereads_routine hn hns ih (by decide) (by decide),
        rereads_routine hn hns ih (by decide) (by decide)⟩

end Canonical

end Clipper
