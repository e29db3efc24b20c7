import Clipper.Proofs.Likeness.Reader

/-!
Trees with other tokens. A relabelling says what becomes of the tokens that were taken into
a tree and of those that only mark where something is missing; that alone may tell two
trees apart that are alike.
-/

namespace Clipper

structure Relabelling where
  written : Token → Token
  /-- For the place of a placeholder and of a block without statements. -/
  placed : Token → Token

namespace Relabelling

variable (ρ : Relabelling)

/-- All tokens alike. -/
def all (f : Token → Token) : Relabelling := ⟨f, f⟩

def name (n : Name) : Name :=
  if n.isMissing then .missing (ρ.placed n.token) else ⟨ρ.written n.token⟩

def member (a : Attribute) : Attribute := ⟨ρ.written a.token, ρ.name a.name⟩

mutual

def expression : Expr → Expr
  | .name n => .name (ρ.name n)
  | .integer t value => .integer (ρ.written t) value
  | .float t bits => .float (ρ.written t) bits
  | .string t delimiter body => .string (ρ.written t) delimiter body
  | .date t => .date (ρ.written t)
  | .boolean t value => .boolean (ρ.written t) value
  | .nil t => .nil (ρ.written t)
  | .array t elements => .array (ρ.written t) (expressions elements)
  | .unary t op operand => .unary (ρ.written t) op (expression operand)
  | .binary t op left right => .binary (ρ.written t) op (expression left) (expression right)
  | .call t callee arguments => .call (ρ.written t) (expression callee) (expressions arguments)
  | .index t indexed position =>
      .index (ρ.written t) (expression indexed) (expression position)
  | .member t object member => .member (ρ.written t) (expression object) (ρ.name member)
  | .assign t target value => .assign (ρ.written t) (expression target) (expression value)
  | .branch first others alternative closing =>
      .branch (guarded first) (branches others) (blockIfAny alternative)
        (closing.map ρ.written)
  | .whileLoop g closing => .whileLoop (guarded g) (closing.map ρ.written)
  | .forLoop t counter start stop step body closing =>
      .forLoop (ρ.written t) (ρ.name counter) (expression start) (expression stop) (ifAny step)
        (block body) (closing.map ρ.written)
  | .missing t => .missing (ρ.placed t)

def expressions : List Expr → List Expr
  | [] => []
  | e :: es => expression e :: expressions es

def ifAny : Option Expr → Option Expr
  | none => none
  | some e => some (expression e)

def guarded : Guarded → Guarded
  | ⟨t, condition, body⟩ => ⟨ρ.written t, expression condition, block body⟩

def branches : List Guarded → List Guarded
  | [] => []
  | g :: gs => guarded g :: branches gs

def block : Block → Block
  | ⟨t, statements⟩ =>
      ⟨if statements.isEmpty then ρ.placed t else ρ.written t, stmts statements⟩

def blockIfAny : Option Block → Option Block
  | none => none
  | some b => some (block b)

def stmts : List Stmt → List Stmt
  | [] => []
  | s :: ss => stmt s :: stmts ss

def stmt : Stmt → Stmt
  | .function isStatic r => .function isStatic (routine r)
  | .classDef d => .classDef (classDefinition d)
  | .variable t storage n value => .variable (ρ.written t) storage (ρ.name n) (ifAny value)
  | .ret t value => .ret (ρ.written t) (ifAny value)
  | .expression t value => .expression (ρ.written t) (expression value)

def routine : Routine → Routine
  | ⟨t, n, parameters, body, closing⟩ =>
      ⟨ρ.written t, ρ.name n, parameters.map ρ.name, block body, closing.map ρ.written⟩

def routines : List Routine → List Routine
  | [] => []
  | r :: rs => routine r :: routines rs

def classDefinition : ClassDef → ClassDef
  | ⟨t, n, parent, attributes, methods, closing⟩ =>
      ⟨ρ.written t, ρ.name n, parent.map ρ.name, attributes.map ρ.member, routines methods,
        closing.map ρ.written⟩

end

def program (p : Program) : Program := ⟨ρ.stmts p.statements⟩

def part : Part → Part
  | .expression e => .expression (ρ.expression e)
  | .expressions es => .expressions (ρ.expressions es)
  | .expressionIfAny e => .expressionIfAny (ρ.ifAny e)
  | .guarded g => .guarded (ρ.guarded g)
  | .branches gs => .branches (ρ.branches gs)
  | .block b => .block (ρ.block b)
  | .blockIfAny b => .blockIfAny (ρ.blockIfAny b)
  | .statements ss => .statements (ρ.stmts ss)
  | .statement s => .statement (ρ.stmt s)
  | .routine r => .routine (ρ.routine r)
  | .routines rs => .routines (ρ.routines rs)
  | .classDefinition d => .classDefinition (ρ.classDefinition d)

theorem stmts_eq_map (ss : List Stmt) : ρ.stmts ss = ss.map ρ.stmt := by
  induction ss with
  | nil => rfl
  | cons s ss ih => rw [stmts, ih, List.map_cons]

end Relabelling

namespace Correspondence

/-- Corresponding tokens become the same. -/
structure Relabels (K : Correspondence) (ρ ρ' : Relabelling) : Prop where
  literal : ∀ {t u}, K.token t u → t.literal.isEmpty = false ∧ u.literal.isEmpty = false
  written : ∀ {t u}, K.token t u → ρ.written t = ρ'.written u
  placed : ∀ {t u}, K.Meets t u → ρ.placed t = ρ'.placed u
  missing : ∀ {t u}, K.Meets t u → ρ.name (.missing t) = ρ'.name (.missing u)
  receiver : ∀ {t u}, K.token t u → ρ.written (.implied (.keyword .kwSelf) "Self" t) =
    ρ'.written (.implied (.keyword .kwSelf) "Self" u)

namespace Relabels

variable {K : Correspondence} {ρ ρ' : Relabelling} {n n' : Name}

theorem token (h : K.Relabels ρ ρ') {t u : Token} (ht : K.token t u) :
    ρ.name ⟨t⟩ = ρ'.name ⟨u⟩ := by
  have hl := h.literal ht
  rw [Relabelling.name, Relabelling.name, Name.isMissing, Name.isMissing, Name.text, Name.text,
    hl.1, hl.2, h.written ht]
  rfl

theorem name (h : K.Relabels ρ ρ') (hn : K.Names n n') : ρ.name n = ρ'.name n' := by
  cases hn with
  | written ht _ => exact h.token ht
  | missing ht => exact h.missing ht

theorem implied (h : K.Relabels ρ ρ') {t u : Token} (ht : K.token t u) :
    ρ.name ⟨.implied (.keyword .kwSelf) "Self" t⟩ =
      ρ'.name ⟨.implied (.keyword .kwSelf) "Self" u⟩ :=
  congrArg Name.mk (h.receiver ht)

theorem closing (h : K.Relabels ρ ρ') {o o' : Option Token} (ho : Option.Rel K.token o o') :
    o.map ρ.written = o'.map ρ'.written := by
  cases ho with
  | none => rfl
  | some ht => exact congrArg some (h.written ht)

theorem forall₂_map {α β : Type} {R : α → α → Prop} {f g : α → β} {xs ys : List α}
    (h : List.Forall₂ R xs ys) (hfg : ∀ x y, R x y → f x = g y) : xs.map f = ys.map g := by
  induction h with
  | nil => rfl
  | cons hx _ ih => rw [List.map_cons, List.map_cons, hfg _ _ hx, ih]

end Relabels

/-- Trees that are alike become the same. -/
theorem Relabels.part {K : Correspondence} {ρ ρ' : Relabelling} {nested : Bool} {x y : Part}
    (h : K.Relabels ρ ρ') (halike : Part.Alike K nested x y) : ρ.part x = ρ'.part y := by
  induction halike with
  | name ht _ => simp [Relabelling.part, Relabelling.expression, h.token ht]
  | integer ht | float ht | string ht | date ht | boolean ht | nil ht =>
      simp [Relabelling.part, Relabelling.expression, h.written ht]
  | missing ht => simp [Relabelling.part, Relabelling.expression, h.placed ht]
  | ownMember ht hn =>
      simp [Relabelling.part, Relabelling.expression, h.written ht, h.implied ht, h.name hn]
  | noExpressions | noExpression | noBranches | noBlock | noStatements | noRoutines =>
      simp [Relabelling.part, Relabelling.expressions, Relabelling.ifAny, Relabelling.branches,
        Relabelling.blockIfAny, Relabelling.stmts, Relabelling.routines]
  | emptyBlock ht =>
      simp [Relabelling.part, Relabelling.block, Relabelling.stmts, h.placed ht]
  | array ht _ ih | unary ht _ ih | binary ht _ _ ih ih' | call ht _ _ ih ih'
  | index ht _ _ ih ih' | assign ht _ _ ih ih' =>
      simp_all [Relabelling.part, Relabelling.expression, h.written ht]
  | member ht _ hn ih =>
      simp_all [Relabelling.part, Relabelling.expression, h.written ht, h.name hn]
  | branch _ _ _ hc ih ih' ih'' | whileLoop _ hc ih =>
      simp_all [Relabelling.part, Relabelling.expression, h.closing hc]
  | forLoop ht hn _ _ _ _ hc =>
      simp_all [Relabelling.part, Relabelling.expression, h.written ht, h.name hn, h.closing hc]
  | guarded ht => simp_all [Relabelling.part, Relabelling.guarded, h.written ht]
  | expressions | someExpression | branches | someBlock | statements | routines =>
      simp_all [Relabelling.part, Relabelling.expressions, Relabelling.ifAny,
        Relabelling.branches, Relabelling.blockIfAny, Relabelling.stmts, Relabelling.routines]
  | @block t u _ ss ss' ht hss ih =>
      have hempty : ss.isEmpty = ss'.isEmpty := by cases hss <;> rfl
      have hplace : (if ss.isEmpty then ρ.placed t else ρ.written t) =
          if ss'.isEmpty then ρ'.placed u else ρ'.written u := by
        rw [hempty, h.placed (.inl ht), h.written ht]
      simp_all [Relabelling.part, Relabelling.block]
  | function | classDef => simp_all [Relabelling.part, Relabelling.stmt]
  | ret ht _ ih | expression ht _ ih =>
      simp_all [Relabelling.part, Relabelling.stmt, h.written ht]
  | «variable» ht hn => simp_all [Relabelling.part, Relabelling.stmt, h.written ht, h.name hn]
  | routine ht hn hps _ hc =>
      simp_all [Relabelling.part, Relabelling.routine, h.written ht, h.name hn, h.closing hc,
        forall₂_map hps fun _ _ => h.name]
  | @classDefinition _ _ _ _ p p' _ _ _ _ _ _ _ ht hn hparent has _ hc =>
      have hp : p.map ρ.name = p'.map ρ'.name := by
        cases hparent with
        | none => rfl
        | some hn => exact congrArg some (h.name hn)
      have hattributes := forall₂_map has (f := ρ.member) (g := ρ'.member) fun _ _ ha => by
        rw [Relabelling.member, Relabelling.member, h.written ha.token, h.name ha.name]
      simp_all [Relabelling.part, Relabelling.classDefinition, h.written ht, h.name hn,
        h.closing hc]

/-- Programs that are alike become the same. -/
theorem Relabels.statements {K : Correspondence} {ρ ρ' : Relabelling} {ss ss' : List Stmt}
    (h : K.Relabels ρ ρ')
    (halike : Part.Alike K false (.statements ss) (.statements ss')) :
    ρ.stmts ss = ρ'.stmts ss' := Part.statements.inj (h.part halike)

/-- Nothing changes where every token stays as it is. -/
theorem relabelled_id {K : Correspondence} {nested : Bool} {x y : Part}
    (hw : ∀ {t u}, K.token t u → u.literal.isEmpty = false) (h : Part.Alike K nested x y) :
    (Relabelling.all id).part y = y := by
  have hwritten : ∀ {t u}, K.token t u → (Relabelling.all id).name ⟨u⟩ = ⟨u⟩ := fun ht => by
    simp [Relabelling.name, Name.isMissing, Name.text, hw ht, Relabelling.all]
  have hname : ∀ {n n'}, K.Names n n' → (Relabelling.all id).name n' = n' := fun hn => by
    cases hn with
    | written ht _ => exact hwritten ht
    | missing _ => rfl
  have hnames : ∀ {ns ns'}, List.Forall₂ K.Names ns ns' →
      ns'.map (Relabelling.all id).name = ns' := fun hns => by
    induction hns with
    | nil => rfl
    | cons hn _ ih => rw [List.map_cons, hname hn, ih]
  have hattributes : ∀ {as as'}, List.Forall₂ K.Attributes as as' →
      as'.map (Relabelling.all id).member = as' := fun has => by
    induction has with
    | nil => rfl
    | cons ha _ ih => rw [List.map_cons, ih, Relabelling.member, hname ha.name]; rfl
  have hplaced : ∀ t, (Relabelling.all id).placed t = t := fun _ => rfl
  have hid : ∀ t, (Relabelling.all id).written t = t := fun _ => rfl
  have himplied : ∀ t, (Relabelling.all id).name ⟨.implied (.keyword .kwSelf) "Self" t⟩ =
      ⟨.implied (.keyword .kwSelf) "Self" t⟩ := fun _ => rfl
  have hclosing : ∀ o : Option Token, o.map (Relabelling.all id).written = o := fun o => by
    cases o <;> rfl
  induction h with
  | name ht _ => simp [Relabelling.part, Relabelling.expression, hwritten ht]
  | ownMember ht hn =>
      simp [Relabelling.part, Relabelling.expression, hid, hname hn, himplied]
  | integer | float | string | date | boolean | nil | missing | noExpressions | noExpression
  | noBranches | emptyBlock | noBlock | noStatements | noRoutines | array | unary | binary | call
  | index | assign | expressions | someExpression | branches | someBlock | statements
  | routines | guarded | function | classDef | ret | expression | branch | whileLoop =>
      simp_all [Relabelling.part, Relabelling.expression, Relabelling.expressions,
        Relabelling.ifAny, Relabelling.guarded, Relabelling.branches, Relabelling.block,
        Relabelling.blockIfAny, Relabelling.stmts, Relabelling.stmt, Relabelling.routines]
  | block => simp_all [Relabelling.part, Relabelling.block]
  | member _ _ hn | forLoop _ hn =>
      simp_all [Relabelling.part, Relabelling.expression, hname hn]
  | «variable» _ hn => simp_all [Relabelling.part, Relabelling.stmt, hname hn]
  | routine _ hn hps =>
      simp_all [Relabelling.part, Relabelling.routine, hname hn, hnames hps]
  | @classDefinition _ _ _ _ p p' _ _ _ _ _ _ _ _ hn hparent has =>
      have hp : p'.map (Relabelling.all id).name = p' := by
        cases hparent with
        | none => rfl
        | some hn => exact congrArg some (hname hn)
      simp_all [Relabelling.part, Relabelling.classDefinition, hname hn, hattributes has]

/-- A program becomes the other one, if that is how tokens correspond. -/
theorem Relabels.statements_eq {K : Correspondence} {ρ : Relabelling} {ss ss' : List Stmt}
    (h : K.Relabels ρ (.all id))
    (halike : Part.Alike K false (.statements ss) (.statements ss')) : ρ.stmts ss = ss' :=
  (h.statements halike).trans
    (Part.statements.inj (relabelled_id (fun ht => (h.literal ht).2) halike))

end Correspondence

end Clipper
