import Clipper.Proofs.Grammar.Phrase

/-!
The bodies of conditionals and loops in a tree, in the order of the text. A body is known by
its first token, and it ends at one of the words that close it.
-/

namespace Clipper

/-- The statements of a conditional or a loop. -/
structure BlockBody where
  /-- The first token behind the opening of the body, which closes it if there is no statement. -/
  token : Token
  closers : List Keyword
  deriving DecidableEq

namespace Bodies

mutual

def expression : Expr → List BlockBody
  | .name _ | .integer _ _ | .float _ _ | .string _ _ _ | .date _ | .boolean _ _ | .nil _
  | .missing _ => []
  | .array _ elements => expressions elements
  | .unary _ _ operand => expression operand
  | .binary _ _ left right | .index _ left right | .assign _ left right =>
      expression left ++ expression right
  | .call _ callee arguments => expression callee ++ expressions arguments
  | .member _ object _ => expression object
  | .branch first others alternative _ =>
      guarded Grammar.branchClosers first ++ (branches others ++ blockIfAny alternative)
  | .whileLoop g _ => guarded [.kwEndDo] g
  | .forLoop _ _ start stop step body _ =>
      expression start ++ (expression stop ++ (ifAny step ++ block [.kwNext] body))

def expressions : List Expr → List BlockBody
  | [] => []
  | e :: es => expression e ++ expressions es

def ifAny : Option Expr → List BlockBody
  | none => []
  | some e => expression e

def guarded (closers : List Keyword) : Guarded → List BlockBody
  | ⟨_, condition, body⟩ => expression condition ++ block closers body

def branches : List Guarded → List BlockBody
  | [] => []
  | g :: gs => guarded Grammar.branchClosers g ++ branches gs

/-- A block that is a body of its own. -/
def block (closers : List Keyword) : Block → List BlockBody
  | ⟨t, statements⟩ => ⟨t, closers⟩ :: stmts statements

def blockIfAny : Option Block → List BlockBody
  | none => []
  | some b => block [.kwEndIf] b

def stmts : List Stmt → List BlockBody
  | [] => []
  | s :: ss => stmt s ++ stmts ss

def stmt : Stmt → List BlockBody
  | .function _ r => routine r
  | .classDef d => classDefinition d
  | .variable _ _ _ value | .ret _ value => ifAny value
  | .expression _ value => expression value

def routine : Routine → List BlockBody
  | ⟨_, _, _, ⟨_, statements⟩, _⟩ => stmts statements

def routines : List Routine → List BlockBody
  | [] => []
  | r :: rs => routine r ++ routines rs

def classDefinition : ClassDef → List BlockBody
  | ⟨_, _, _, _, methods, _⟩ => routines methods

end

end Bodies

/-- Every body of a program. -/
def Program.bodies (p : Program) : List BlockBody := Bodies.stmts p.statements

namespace Bodies

theorem stmts_append (ss ss' : List Stmt) : stmts (ss ++ ss') = stmts ss ++ stmts ss' := by
  induction ss with
  | nil => rfl
  | cons s ss ih => rw [List.cons_append, stmts, stmts, ih, List.append_assoc]

theorem stmts_variables (t : Token) (storage : Storage) (ds : List (Name × Option Expr)) :
    stmts (ds.map fun d => .variable t storage d.1 d.2) = ds.flatMap fun d => ifAny d.2 := by
  induction ds with
  | nil => rfl
  | cons d ds ih => rw [List.map_cons, stmts, stmt, ih, List.flatMap_cons]

theorem routine_eq (r : Routine) : routine r = stmts r.body.statements := by
  cases r with
  | mk t n parameters body closing => cases body; rfl

/-- The bodies in a member of a class. -/
def member : Grammar.Member → List BlockBody
  | .data _ => []
  | .method m => routine m

theorem routines_methods (ms : List Grammar.Member) :
    routines (ms.filterMap Grammar.Member.method?) = ms.flatMap member := by
  induction ms with
  | nil => rfl
  | cons m ms ih =>
      rw [List.flatMap_cons, ← ih]
      cases m <;> rfl

theorem attributes_eq (t : Token) (ns : List Name) :
    (ns.map fun n => Grammar.Member.data ⟨t, n⟩).flatMap member = [] := by
  simp [member]

end Bodies

namespace Grammar

/-- The bodies in a phrase. A chain holds those that its links add. -/
def Phrase.bodies : Phrase → List BlockBody
  | .expression _ _ x | .operand _ x => Bodies.expression x
  | .links _ _ _ left x => (Bodies.expression x).drop (Bodies.expression left).length
  | .expressions _ xs | .arguments _ _ xs => Bodies.expressions xs
  | .step _ x => Bodies.ifAny x
  | .guarded _ closers g => Bodies.guarded closers g
  | .branches _ gs => Bodies.branches gs
  | .alternative _ b => Bodies.blockIfAny b
  | .block _ b => Bodies.stmts b.statements
  | .statements _ ss | .statement _ ss => Bodies.stmts ss
  | .declarator _ d => Bodies.ifAny d.2
  | .declarators _ ds => ds.flatMap fun d => Bodies.ifAny d.2
  | .routine _ _ _ x => Bodies.routine x
  | .members _ ms | .member _ ms => ms.flatMap Bodies.member

variable {lax : Bool} {m : Nat} {q : Phrase} {s s' : Spot} {c : Context} {p : Nat}
  {b b' : Option Token} {left x y : Expr} {bs : List BlockBody}

/-! ### Chains -/

/-- Links add bodies behind those that are there. -/
def Phrase.Extends : Phrase → Prop
  | .links _ _ _ left x => Bodies.expression left <+: Bodies.expression x
  | _ => True

theorem Derives.extends (h : Derives lax m q s s') : q.Extends := by
  induction h with
  | stop => exact List.prefix_refl _
  | binary _ _ _ _ ih | assign _ _ _ _ _ ih | call _ _ _ _ ih | index _ _ _ _ ih
  | subscript _ _ _ _ ih => exact (List.prefix_append _ _).trans ih
  | closeIndex _ _ ih | member _ _ _ ih => exact ih
  | _ => trivial

theorem Derives.bodies_chain (h : Derives lax m (.links c p b left x) s s') :
    Bodies.expression x = Bodies.expression left ++ (Phrase.links c p b left x).bodies :=
  (List.prefix_iff_eq_append.mp h.extends).symm

/-- A link with these bodies, and the links behind it. -/
theorem Derives.bodies_link (h : Derives lax m (.links c p b' y x) s s')
    (hy : Bodies.expression y = Bodies.expression left ++ bs) :
    (Phrase.links c p b left x).bodies = bs ++ (Phrase.links c p b' y x).bodies := by
  have hx := h.bodies_chain
  rw [hy, List.append_assoc] at hx
  rw [Phrase.bodies, hx, List.drop_left]

/-! ### The order of the text -/

/-- The bodies begin at some of these tokens, in this order. -/
def Ahead (bs : List BlockBody) (ts : List Token) : Prop := (bs.map BlockBody.token).Sublist ts

namespace Ahead

variable {rest : List BlockBody} {t : Token} {ts us : List Token}

theorem within (h : Ahead rest us) (hts : us.Sublist ts) : Ahead rest ts := h.trans hts

theorem past (h : Ahead rest ts) : Ahead rest (t :: ts) := h.cons t

theorem behind (h : Ahead rest ts.tail) : Ahead rest ts := h.within (List.tail_sublist ts)

end Ahead

theorem Names.sublist {ns : List Name} (h : Names ns s s') : s'.rest.Sublist s.rest.tail := by
  induction h with
  | last _ _ => exact .refl _
  | more _ _ _ ih => exact ((ih.trans (List.tail_sublist _)).cons _)

theorem Parameters.sublist {ns : List Name} (h : Parameters ns s s') :
    s'.rest.Sublist s.rest := by
  cases h with
  | absent _ => exact .refl _
  | empty _ _ _ => exact ((List.Sublist.refl _).cons _).cons _
  | names _ _ hns _ =>
      have hbehind := (List.sublist_cons_self _ _).trans hns.sublist
      exact (hbehind.trans (List.tail_sublist _)).cons _

theorem Closing.sublist {k : Keyword} {t : Option Token} (h : Closing k t s s') :
    s'.rest.Sublist s.rest := by
  cases h with
  | absent _ => exact .refl _
  | word _ => exact List.sublist_cons_self _ _

theorem Parent.sublist {parent : Option Name} (h : Parent parent s s') :
    s'.rest.Sublist s.rest := by
  cases h with
  | absent _ => exact .refl _
  | named _ _ => exact ((List.Sublist.refl _).cons _).cons _

theorem LoopWord.sublist {t : Token} (h : LoopWord t s s') : s'.rest.Sublist s.rest.tail := by
  cases h with
  | «while» _ => exact .refl _
  | doWhile _ _ => exact List.sublist_cons_self _ _

theorem CounterAgain.sublist {n : Token} (h : CounterAgain lax n s s') :
    s'.rest.Sublist s.rest := by
  cases h with
  | absent _ => exact .refl _
  | named _ _ _ => exact List.sublist_cons_self _ _

/-- A body begins at the token in front of its block. -/
theorem Derives.ahead_body {b : Block} {rest : List BlockBody} (h : Derives lax m (.block c b) s s')
    (hrest : Ahead ((Phrase.block c b).bodies ++ rest) s.rest.tail) (closers : List Keyword) :
    Ahead (Bodies.block closers b ++ rest) s.rest := by
  cases h with
  | block _ => exact hrest.cons_cons _

/-- Where the bodies behind the phrase can begin. No body begins at the token behind a phrase that
is followed by a statement or by a word that closes a body. -/
def Phrase.beyond : Phrase → Spot → List Token
  | .guarded _ _ _, s | .branches _ _, s | .alternative _ _, s | .block _ _, s
  | .statements _ _, s | .statement _ _, s | .routine _ _ _ _, s | .members _ _, s
  | .member _ _, s => s.rest.tail
  | _, s => s.rest

/-- Where the bodies in the phrase can begin. -/
def Phrase.within : Phrase → Spot → List Token
  | .links _ _ _ _ _, s | .step _ _, s => s.rest
  | _, s => s.rest.tail

/-- The bodies of a tree are met in the order in which the text is read. -/
theorem Derives.ahead (h : Derives lax m q s s') :
    ∀ {rest : List BlockBody}, Ahead rest (q.beyond s') →
      Ahead (q.bodies ++ rest) (q.within s) := by
  induction h with
  | expression _ hlinks ih ih' =>
      intro rest hrest
      rw [Phrase.bodies, hlinks.bodies_chain, List.append_assoc]
      exact ih (ih' hrest)
  -- Operands
  | name | integer | float | string | date | boolean | nil => exact fun hrest => hrest
  | unary _ _ ih | array _ _ ih => exact fun hrest => (ih hrest).behind
  | group _ _ _ ih => exact fun hrest => (ih hrest.past).behind
  | ownMember _ _ => exact fun hrest => hrest.past
  | branch _ _ _ _ _ ih ih' ih'' =>
      intro rest hrest
      have := (ih (ih' (ih'' hrest))).behind
      rwa [← List.append_assoc, ← List.append_assoc, List.append_assoc (Phrase.bodies _)] at this
  | whileLoop hword _ _ ih => exact fun hrest => (ih hrest).behind.within hword.sublist
  | forLoop _ _ _ _ _ _ _ hbl _ hcounter iha ihb ihstep ihbl =>
      intro rest hrest
      have hbody := hbl.ahead_body (ihbl (hrest.within hcounter.sublist)) [.kwNext]
      have := (iha (ihb (ihstep hbody)).behind.past).behind
      simpa [Phrase.bodies, Phrase.within, Bodies.expression] using this.past.past
  -- Links
  | stop _ => exact fun hrest => by simpa [Phrase.bodies, Phrase.beyond, Phrase.within] using hrest
  | binary _ _ hlinks ih ih' | assign _ _ _ hlinks ih ih' | call _ _ hlinks ih ih'
  | index _ _ hlinks ih ih' | subscript _ _ hlinks ih ih' =>
      intro rest hrest
      rw [hlinks.bodies_link rfl, List.append_assoc]
      exact (ih (ih' hrest)).behind.past
  | closeIndex _ _ ih => exact fun hrest => (ih hrest).past
  | member _ _ _ ih => exact fun hrest => (ih hrest).past.past
  -- Lists of expressions
  | lastExpression _ _ ih =>
      intro rest hrest
      simpa [Phrase.bodies, Phrase.within, Bodies.expressions] using ih hrest
  | moreExpressions _ _ _ ih ih' =>
      intro rest hrest
      have := ih (ih' hrest).behind.past
      rwa [← List.append_assoc] at this
  | noArguments _ => exact fun hrest => hrest
  | arguments _ _ _ ih => exact fun hrest => ih hrest.past
  -- Parts of conditionals and loops
  | noStep _ => exact fun hrest => hrest
  | step _ _ ih => exact fun hrest => (ih hrest).behind.past
  | @guarded _ _ _ _ _ closers _ _ _ _ hb ih ih' =>
      intro rest hrest
      have := ih (hb.ahead_body (ih' hrest) closers)
      rwa [← List.append_assoc] at this
  | noBranches _ | noAlternative _ => exact fun hrest => hrest
  | branches _ _ _ ih ih' =>
      intro rest hrest
      have := (ih (ih' hrest)).behind
      rwa [← List.append_assoc] at this
  | alternative _ hb ih => exact fun hrest => hb.ahead_body (ih hrest) [.kwEndIf]
  -- Statements
  | block _ ih => exact ih
  | noStatements _ | noMembers _ => exact fun hrest => hrest
  | statements _ _ _ ih ih' =>
      intro rest hrest
      have := ih (ih' hrest)
      rwa [← List.append_assoc, Phrase.bodies, Phrase.bodies, ← Bodies.stmts_append] at this
  | variableList _ _ _ ih =>
      intro rest hrest
      rw [Phrase.bodies, Bodies.stmts_variables]
      exact (ih hrest.behind).behind
  | returnNothing _ _ => exact fun hrest => hrest.behind
  | returnValue _ _ _ _ ih =>
      intro rest hrest
      simpa [Phrase.bodies, Phrase.within, Bodies.stmts, Bodies.stmt, Bodies.ifAny] using
        (ih hrest.behind).behind
  | value _ _ ih =>
      intro rest hrest
      simpa [Phrase.bodies, Phrase.within, Bodies.stmts, Bodies.stmt] using ih hrest.behind
  | function _ _ _ ih =>
      intro rest hrest
      simpa [Phrase.bodies, Phrase.within, Bodies.stmts, Bodies.stmt] using (ih hrest).behind
  | staticFunction _ _ _ _ ih =>
      intro rest hrest
      simpa [Phrase.bodies, Phrase.within, Bodies.stmts, Bodies.stmt] using (ih hrest).behind.past
  | classDef _ _ _ hparent _ _ ih =>
      intro rest hrest
      have := (ih hrest.behind).behind.within hparent.sublist
      simpa [Phrase.bodies, Phrase.within, Bodies.stmts, Bodies.stmt, Bodies.classDefinition,
        Bodies.routines_methods] using this.past
  -- Parts of declarations
  | declared _ _ => exact fun hrest => hrest
  | initialized _ _ _ ih => exact fun hrest => (ih hrest).behind.past
  | lastDeclarator _ _ ih =>
      intro rest hrest
      simpa [Phrase.bodies, Phrase.within] using ih hrest
  | moreDeclarators _ _ _ ih ih' =>
      intro rest hrest
      have := ih (ih' hrest).behind.past
      rwa [← List.append_assoc] at this
  | routine _ hps _ hc ih =>
      intro rest hrest
      rw [Phrase.bodies, Bodies.routine_eq]
      exact (ih (Ahead.within hrest hc.sublist.tail)).behind.within hps.sublist
  | members _ _ ih ih' =>
      intro rest hrest
      have := ih (ih' hrest)
      rwa [← List.append_assoc, Phrase.bodies, Phrase.bodies, ← List.flatMap_append] at this
  | attributes _ hns _ =>
      intro rest hrest
      rw [Phrase.bodies, Bodies.attributes_eq]
      exact ((Ahead.behind hrest).within hns.sublist).behind
  | method _ _ ih =>
      intro rest hrest
      simpa [Phrase.bodies, Phrase.within, Bodies.member] using (ih hrest).behind

end Grammar

end Clipper
