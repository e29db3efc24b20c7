import Clipper.Names
import Clipper.Proofs.Likeness.Reader

/-!
Trees that are alike declare and mention names alike: in the same scopes and in the same
order.
-/

namespace Clipper

namespace Correspondence

variable (K : Correspondence)

/-- A name as it is mentioned: the receiver is one too, written or implied. -/
inductive Mentions : Name → Name → Prop
  | name : K.Names n n' → Mentions n n'
  | receiver : K.token t u → t.kind = .keyword .kwSelf → Mentions ⟨t⟩ ⟨u⟩
  | implied : K.token t u → Mentions ⟨.implied (.keyword .kwSelf) "Self" t⟩
      ⟨.implied (.keyword .kwSelf) "Self" u⟩

structure Declarations (d d' : Declaration) : Prop where
  scope : d.scope = d'.scope
  name : K.Names d.name d'.name
  kind : d.kind = d'.kind
  isStatic : d.isStatic = d'.isStatic
  parent : d.parent = d'.parent

structure References (r r' : Reference) : Prop where
  scope : r.scope = r'.scope
  name : K.Mentions r.name r'.name

end Correspondence

namespace Part

open Names

/-- What a part declares in a scope. A routine stands in the scope of its own. -/
def declared (s : Scope) : Part → List Declaration
  | expression e => Names.declared s e
  | expressions es => declaredEach s es
  | expressionIfAny e => declaredOpt s e
  | guarded g => declaredGuarded s g
  | branches gs => declaredGuardeds s gs
  | block b => declaredBlock s b
  | blockIfAny b => declaredOptBlock s b
  | statements ss => declaredStmts s ss
  | statement t => declaredStmt s t
  | routine r => r.parameters.map (.ofName s .parameter) ++ declaredBlock s r.body
  | routines ms => declaredMethods s ms
  | classDefinition d => declaredClass s d

/-- What a part mentions in a scope. -/
def referred (s : Scope) : Part → List Reference
  | expression e => Names.referred s e
  | expressions es => referredEach s es
  | expressionIfAny e => referredOpt s e
  | guarded g => referredGuarded s g
  | branches gs => referredGuardeds s gs
  | block b => referredBlock s b
  | blockIfAny b => referredOptBlock s b
  | statements ss => referredStmts s ss
  | statement t => referredStmt s t
  | routine r => referredBlock s r.body
  | routines ms => referredMethods s ms
  | classDefinition d => referredClass s d

theorem declaredFunction_eq (s : Scope) (r : Routine) :
    declaredFunction s r = declared (s.enterFunction r.name.text) (.routine r) := by
  cases r
  rfl

theorem declaredMethod_eq (s : Scope) (r : Routine) :
    declaredMethod s r = declared (s.enterMethod r.name.text) (.routine r) := by
  cases r
  rfl

theorem referredFunction_eq (s : Scope) (r : Routine) :
    referredFunction s r = referred (s.enterFunction r.name.text) (.routine r) := by
  cases r
  rfl

theorem referredMethod_eq (s : Scope) (r : Routine) :
    referredMethod s r = referred (s.enterMethod r.name.text) (.routine r) := by
  cases r
  rfl

namespace Alike

variable {K : Correspondence} {nested : Bool} {x y : Part}

theorem routine_name {r r' : Routine} (h : Alike K nested (.routine r) (.routine r')) :
    K.Names r.name r'.name := by
  cases h
  assumption

theorem routine_names {ms ms' : List Routine}
    (h : Alike K nested (.routines ms) (.routines ms')) :
    List.Forall₂ (fun m m' => K.Names m.name m'.name) ms ms' := by
  induction ms generalizing ms' with
  | nil =>
      cases h
      exact .nil
  | cons m ms ih =>
      cases h with
      | routines hm hms => exact .cons (routine_name hm) (ih hms)

theorem declared (h : Alike K nested x y) (s : Scope) :
    List.Forall₂ K.Declarations (x.declared s) (y.declared s) := by
  have hname : ∀ {n n' : Name} (s : Scope) (kind : SymbolKind), K.Names n n' →
      K.Declarations (.ofName s kind n) (.ofName s kind n') := fun _ _ hn => ⟨rfl, hn, rfl, rfl, rfl⟩
  induction h generalizing s with
  | name | integer | float | string | date | boolean | nil | missing | ownMember |
    noExpressions | noExpression | noBranches | emptyBlock | noBlock | noStatements |
    noRoutines => exact .nil
  | array _ _ ih | unary _ _ ih | member _ _ _ ih | someExpression _ ih | block _ _ ih
  | someBlock _ ih | classDef _ ih | ret _ _ ih | expression _ _ ih | whileLoop _ _ ih =>
      exact ih s
  | binary _ _ _ ih ih' | call _ _ _ ih ih' | index _ _ _ ih ih' | assign _ _ _ ih ih'
  | expressions _ _ ih ih' | guarded _ _ _ ih ih' | branches _ _ ih ih'
  | statements _ _ ih ih' => exact List.rel_append (ih s) (ih' s)
  | branch _ _ _ _ ih₁ ih₂ ih₃ => exact List.rel_append (List.rel_append (ih₁ s) (ih₂ s)) (ih₃ s)
  | forLoop _ _ _ _ _ _ _ ih₁ ih₂ ih₃ ih₄ =>
      exact List.rel_append (List.rel_append (List.rel_append (ih₁ s) (ih₂ s)) (ih₃ s)) (ih₄ s)
  | function hr ih =>
      have hn := routine_name hr
      refine .cons ⟨rfl, hn, rfl, rfl, rfl⟩ ?_
      rw [declaredFunction_eq, declaredFunction_eq, ← hn.text_eq]
      exact ih _
  | «variable» _ hn _ ih => exact .cons (hname s .variable hn) (ih s)
  | routine _ _ hps _ _ ih =>
      refine List.rel_append ?_ (ih s)
      simpa using hps.imp fun _ _ hn => hname s .parameter hn
  | routines hr _ ih ih' =>
      refine List.rel_append ?_ (ih' s)
      rw [declaredMethod_eq, declaredMethod_eq, ← (routine_name hr).text_eq]
      exact ih _
  | @classDefinition _ _ n n' p p' as as' _ ms ms' _ _ _ hn hparent has hms _ ih =>
      have hp : p.map Name.text = p'.map Name.text := by
        cases hparent with
        | none => rfl
        | some hpp => exact congrArg some hpp.text_eq
      have hattributes : List.Forall₂ K.Declarations
          (as.map fun a => .ofName (s.enterClass n.text) .dataMember a.name)
          (as'.map fun a => .ofName (s.enterClass n.text) .dataMember a.name) := by
        rw [List.forall₂_map_left_iff, List.forall₂_map_right_iff]
        exact has.imp fun _ _ ha => hname _ _ ha.name
      have hmethods : List.Forall₂ K.Declarations
          (ms.map fun m => .ofName (s.enterClass n.text) .method m.name)
          (ms'.map fun m => .ofName (s.enterClass n.text) .method m.name) := by
        rw [List.forall₂_map_left_iff, List.forall₂_map_right_iff]
        exact (routine_names hms).imp fun _ _ hm => hname _ _ hm
      refine .cons ⟨rfl, hn, rfl, rfl, hp⟩ ?_
      rw [← hn.text_eq]
      exact List.rel_append (List.rel_append hattributes hmethods) (ih _)

theorem referred (h : Alike K nested x y) (s : Scope) :
    List.Forall₂ K.References (x.referred s) (y.referred s) := by
  induction h generalizing s with
  | integer | float | string | date | boolean | nil | missing | noExpressions | noExpression |
    noBranches | emptyBlock | noBlock | noStatements | noRoutines => exact .nil
  | name ht hk =>
      refine .cons ⟨rfl, ?_⟩ .nil
      rcases hk with hk | hk
      · exact .name (.written ht hk)
      · exact .receiver ht hk
  | ownMember ht _ => exact .cons ⟨rfl, .implied ht⟩ .nil
  | array _ _ ih | unary _ _ ih | member _ _ _ ih | someExpression _ ih | block _ _ ih
  | someBlock _ ih | classDef _ ih | ret _ _ ih | expression _ _ ih | whileLoop _ _ ih
  | «variable» _ _ _ ih | routine _ _ _ _ _ ih => exact ih s
  | binary _ _ _ ih ih' | call _ _ _ ih ih' | index _ _ _ ih ih' | assign _ _ _ ih ih'
  | expressions _ _ ih ih' | guarded _ _ _ ih ih' | branches _ _ ih ih'
  | statements _ _ ih ih' => exact List.rel_append (ih s) (ih' s)
  | branch _ _ _ _ ih₁ ih₂ ih₃ => exact List.rel_append (List.rel_append (ih₁ s) (ih₂ s)) (ih₃ s)
  | forLoop _ hn _ _ _ _ _ ih₁ ih₂ ih₃ ih₄ =>
      exact .cons ⟨rfl, .name hn⟩
        (List.rel_append (List.rel_append (List.rel_append (ih₁ s) (ih₂ s)) (ih₃ s)) (ih₄ s))
  | function hr ih =>
      rw [Part.referred, Part.referred, referredStmt, referredStmt, referredFunction_eq,
        referredFunction_eq, ← (routine_name hr).text_eq]
      exact ih _
  | routines hr _ ih ih' =>
      refine List.rel_append ?_ (ih' s)
      rw [referredMethod_eq, referredMethod_eq, ← (routine_name hr).text_eq]
      exact ih _
  | classDefinition _ hn _ _ _ _ ih =>
      rw [Part.referred, Part.referred, referredClass, referredClass, ← hn.text_eq]
      exact ih _

end Alike

end Part

namespace Correspondence

variable {K : Correspondence} {p p' : Program}

theorem declarations_of_alike
    (h : Part.Alike K false (.statements p.statements) (.statements p'.statements)) :
    List.Forall₂ K.Declarations p.declarations p'.declarations := h.declared .file

theorem references_of_alike
    (h : Part.Alike K false (.statements p.statements) (.statements p'.statements)) :
    List.Forall₂ K.References p.references p'.references := h.referred .file

end Correspondence

end Clipper
