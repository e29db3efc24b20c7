import Clipper.Proofs.Likeness.Names
import Clipper.Proofs.Resolution.Items

/-!
What the two walks over a program find, in terms of its items: every declaration with its
scope, and every use with the scope it is resolved in. Routines are not nested, so what
stands in one declares and uses names in its own scope only.
-/

namespace Clipper

namespace Item

def declarations (s : Scope) : Item → List Declaration
  | use _ => []
  | var n => [.ofName s .variable n]
  | function isStatic r => Names.declaredStmt s (.function isStatic r)
  | classDef d => Names.declaredStmt s (.classDef d)

def references (s : Scope) : Item → List Reference
  | use n => [⟨s, n⟩]
  | var _ => []
  | function _ r => Names.referredFunction s r
  | classDef d => Names.referredClass s d

end Item

namespace Names

/-- A walk finds what the items of a part have to be found. -/
def Walks (declared : List Declaration) (referred : List Reference) (s : Scope)
    (items : List Item) : Prop :=
  declared = items.flatMap (Item.declarations s) ∧ referred = items.flatMap (Item.references s)

variable {s : Scope} {ds ds' : List Declaration} {rs rs' : List Reference} {is is' : List Item}

theorem Walks.nil : Walks [] [] s [] := ⟨rfl, rfl⟩

theorem Walks.append (h : Walks ds rs s is) (h' : Walks ds' rs' s is') :
    Walks (ds ++ ds') (rs ++ rs') s (is ++ is') :=
  ⟨by rw [h.1, h'.1, List.flatMap_append], by rw [h.2, h'.2, List.flatMap_append]⟩

theorem Walks.use (n : Name) : Walks [] [⟨s, n⟩] s [.use n] := ⟨rfl, rfl⟩

theorem Walks.var (n : Name) : Walks [.ofName s .variable n] [] s [.var n] := ⟨rfl, rfl⟩

mutual

theorem walks_expression (s : Scope) (e : Expr) :
    Walks (declared s e) (referred s e) s (Items.expression e) := by
  cases e with
  | name n => exact .use n
  | integer | float | string | date | boolean | nil | missing => exact .nil
  | array _ es => exact walks_expressions s es
  | unary _ _ x => exact walks_expression s x
  | binary _ _ x y => exact (walks_expression s x).append (walks_expression s y)
  | call _ x xs => exact (walks_expression s x).append (walks_expressions s xs)
  | index _ x y => exact (walks_expression s x).append (walks_expression s y)
  | member _ x _ => exact walks_expression s x
  | assign _ x y => exact (walks_expression s x).append (walks_expression s y)
  | branch g gs b _ =>
      exact ((walks_guarded s g).append (walks_branches s gs)).append (walks_blockIfAny s b)
  | whileLoop g _ => exact walks_guarded s g
  | forLoop _ n x y z b _ =>
      exact (Walks.use n).append ((((walks_expression s x).append (walks_expression s y)).append
        (walks_ifAny s z)).append (walks_block s b))

theorem walks_expressions (s : Scope) (es : List Expr) :
    Walks (declaredEach s es) (referredEach s es) s (Items.expressions es) := by
  cases es with
  | nil => exact .nil
  | cons e es => exact (walks_expression s e).append (walks_expressions s es)

theorem walks_ifAny (s : Scope) (e : Option Expr) :
    Walks (declaredOpt s e) (referredOpt s e) s (Items.ifAny e) := by
  cases e with
  | none => exact .nil
  | some e => exact walks_expression s e

theorem walks_guarded (s : Scope) (g : Guarded) :
    Walks (declaredGuarded s g) (referredGuarded s g) s (Items.guarded g) := by
  obtain ⟨_, x, b⟩ := g
  exact (walks_expression s x).append (walks_block s b)

theorem walks_branches (s : Scope) (gs : List Guarded) :
    Walks (declaredGuardeds s gs) (referredGuardeds s gs) s (Items.branches gs) := by
  cases gs with
  | nil => exact .nil
  | cons g gs => exact (walks_guarded s g).append (walks_branches s gs)

theorem walks_block (s : Scope) (b : Block) :
    Walks (declaredBlock s b) (referredBlock s b) s (Items.block b) := by
  obtain ⟨_, ss⟩ := b
  exact walks_stmts s ss

theorem walks_blockIfAny (s : Scope) (b : Option Block) :
    Walks (declaredOptBlock s b) (referredOptBlock s b) s (Items.blockIfAny b) := by
  cases b with
  | none => exact .nil
  | some b => exact walks_block s b

theorem walks_stmts (s : Scope) (ss : List Stmt) :
    Walks (declaredStmts s ss) (referredStmts s ss) s (Items.stmts ss) := by
  cases ss with
  | nil => exact .nil
  | cons t ss => exact (walks_stmt s t).append (walks_stmts s ss)

theorem walks_stmt (s : Scope) (t : Stmt) :
    Walks (declaredStmt s t) (referredStmt s t) s (Items.stmt t) := by
  cases t with
  | function isStatic r => exact ⟨(List.append_nil _).symm, (List.append_nil _).symm⟩
  | classDef d => exact ⟨(List.append_nil _).symm, (List.append_nil _).symm⟩
  | «variable» _ _ n e => exact (Walks.var n).append (walks_ifAny s e)
  | ret _ e => exact walks_ifAny s e
  | expression _ e => exact walks_expression s e

end

end Names

/-! ### Routines are not nested -/

/-- No function or class is declared inside a function or a method. -/
def Item.Flat : Item → Prop
  | function _ r => ∀ i ∈ Items.block r.body, i.isLocal = true
  | classDef d => ∀ m ∈ d.methods, ∀ i ∈ Items.block m.body, i.isLocal = true
  | _ => True

namespace Part

def items : Part → List Item
  | expression e => Items.expression e
  | expressions es => Items.expressions es
  | expressionIfAny e => Items.ifAny e
  | guarded g => Items.guarded g
  | branches gs => Items.branches gs
  | block b => Items.block b
  | blockIfAny b => Items.blockIfAny b
  | statements ss => Items.stmts ss
  | statement t => Items.stmt t
  | routine r => Items.block r.body
  | routines ms => ms.flatMap fun m => Items.block m.body
  | classDefinition d => d.methods.flatMap fun m => Items.block m.body

/-- What is read inside a routine or a class declares no function and no class. -/
theorem Alike.flat {K : Correspondence} {nested : Bool} {x y : Part} (h : Alike K nested x y) :
    ∀ i ∈ x.items, i.Flat ∧ (nested = true → i.isLocal = true) := by
  have happend : ∀ {nested : Bool} {is js : List Item},
      (∀ i ∈ is, i.Flat ∧ (nested = true → i.isLocal = true)) →
      (∀ i ∈ js, i.Flat ∧ (nested = true → i.isLocal = true)) →
      ∀ i ∈ is ++ js, i.Flat ∧ (nested = true → i.isLocal = true) := fun his hjs =>
    List.forall_mem_append.mpr ⟨his, hjs⟩
  have hcons : ∀ {nested : Bool} {i : Item} {is : List Item}, i.Flat → i.isLocal = true →
      (∀ i ∈ is, i.Flat ∧ (nested = true → i.isLocal = true)) →
      ∀ j ∈ i :: is, j.Flat ∧ (nested = true → j.isLocal = true) := fun hflat hlocal his =>
    List.forall_mem_cons.mpr ⟨⟨hflat, fun _ => hlocal⟩, his⟩
  induction h with
  | integer | float | string | date | boolean | nil | missing | noExpressions | noExpression |
    noBranches | emptyBlock | noBlock | noStatements | noRoutines => exact fun _ h => nomatch h
  | name | ownMember => exact hcons trivial rfl fun _ h => nomatch h
  | array _ _ ih | unary _ _ ih | member _ _ _ ih | someExpression _ ih | block _ _ ih
  | someBlock _ ih | ret _ _ ih | expression _ _ ih | whileLoop _ _ ih
  | routine _ _ _ _ _ ih | classDefinition _ _ _ _ _ _ ih => exact ih
  | binary _ _ _ ih ih' | call _ _ _ ih ih' | index _ _ _ ih ih' | assign _ _ _ ih ih'
  | expressions _ _ ih ih' | guarded _ _ _ ih ih' | branches _ _ ih ih'
  | statements _ _ ih ih' | routines _ _ ih ih' => exact happend ih ih'
  | branch _ _ _ _ ih₁ ih₂ ih₃ => exact happend (happend ih₁ ih₂) ih₃
  | forLoop _ _ _ _ _ _ _ ih₁ ih₂ ih₃ ih₄ =>
      exact hcons trivial rfl (happend (happend (happend ih₁ ih₂) ih₃) ih₄)
  | «variable» _ _ _ ih => exact hcons trivial rfl ih
  | function _ ih =>
      exact List.forall_mem_singleton.mpr ⟨fun i hi => (ih i hi).2 rfl, fun h => nomatch h⟩
  | classDef _ ih =>
      refine List.forall_mem_singleton.mpr ⟨fun m hm i hi => ?_, fun h => nomatch h⟩
      exact (ih i (List.mem_flatMap.mpr ⟨m, hm, hi⟩)).2 rfl

end Part

/-! ### Entries -/

/-- A declared name with its scope. -/
abbrev ScopedName := Scope × Name

def Declaration.entry (d : Declaration) : ScopedName := (d.scope, d.name)

namespace Item

/-- What an item of a file declares, and what is declared inside it. -/
def entries : Item → List ScopedName
  | use _ => []
  | var n => [(.file, n)]
  | function _ r => (.file, r.name) :: r.locals.map (.function r.name.text, ·)
  | classDef d =>
      (.file, d.name) :: d.members.map (.classBody d.name.text, ·) ++
        d.methods.flatMap fun m => m.locals.map (.method d.name.text m.name.text, ·)

end Item

namespace Home

/-- The scope in which names are resolved in a place. -/
def scope : Home → Scope
  | file => .file
  | function r => .function r.name.text
  | method d m => .method d.name.text m.name.text

end Home

def Use.reference (u : Use) : Reference := ⟨u.home.scope, u.name⟩

namespace Names

variable {s : Scope} {is : List Item}

theorem entries_of_local (h : ∀ i ∈ is, i.isLocal = true) :
    (is.flatMap (Item.declarations s)).map Declaration.entry =
      (is.filterMap Item.var?).map (s, ·) := by
  induction is with
  | nil => rfl
  | cons i is ih =>
      rw [List.forall_mem_cons] at h
      rw [List.flatMap_cons, List.map_append, ih h.2]
      cases i with
      | use | var => rfl
      | function | classDef => cases h.1

theorem references_of_local (h : ∀ i ∈ is, i.isLocal = true) :
    is.flatMap (Item.references s) = (is.filterMap Item.use?).map (⟨s, ·⟩) := by
  induction is with
  | nil => rfl
  | cons i is ih =>
      rw [List.forall_mem_cons] at h
      rw [List.flatMap_cons, ih h.2]
      cases i with
      | use | var => rfl
      | function | classDef => cases h.1

/-- A routine declares its locals in its own scope. -/
theorem entries_routine {r : Routine} (h : ∀ i ∈ Items.block r.body, i.isLocal = true) :
    (r.parameters.map (Declaration.ofName s .parameter) ++ declaredBlock s r.body).map
        Declaration.entry =
      r.locals.map (s, ·) := by
  rw [(walks_block s r.body).1, List.map_append, entries_of_local h, List.map_map, Routine.locals,
    List.map_append]
  rfl

theorem references_routine {r : Routine} (h : ∀ i ∈ Items.block r.body, i.isLocal = true) :
    referredBlock s r.body = r.used.map (⟨s, ·⟩) := by
  rw [(walks_block s r.body).2, references_of_local h, Routine.used]

theorem declaredMethods_eq (s : Scope) (ms : List Routine) :
    declaredMethods s ms = ms.flatMap (declaredMethod s) := by
  induction ms with
  | nil => rfl
  | cons m ms ih => rw [declaredMethods, ih, List.flatMap_cons]

theorem referredMethods_eq (s : Scope) (ms : List Routine) :
    referredMethods s ms = ms.flatMap (referredMethod s) := by
  induction ms with
  | nil => rfl
  | cons m ms ih => rw [referredMethods, ih, List.flatMap_cons]

theorem entries_item {i : Item} (h : i.Flat) :
    (i.declarations .file).map Declaration.entry = i.entries := by
  cases i with
  | use | var => rfl
  | function isStatic r =>
      rw [Item.declarations, declaredStmt, Part.declaredFunction_eq, List.map_cons]
      exact congrArg _ (entries_routine h)
  | classDef d =>
      obtain ⟨t, n, parent, as, ms, closing⟩ := d
      have hmethods : (declaredMethods (.classBody n.text) ms).map Declaration.entry =
          ms.flatMap fun m => m.locals.map (.method n.text m.name.text, ·) := by
        rw [declaredMethods_eq, List.map_flatMap]
        refine List.flatMap_congr fun m hm => ?_
        rw [Part.declaredMethod_eq]
        exact entries_routine (h m hm)
      have hclass : Item.declarations .file (.classDef ⟨t, n, parent, as, ms, closing⟩) =
          ⟨.file, n, .classDef, false, parent.map Name.text⟩ ::
            as.map (fun a => .ofName (.classBody n.text) .dataMember a.name) ++
            ms.map (fun m => .ofName (.classBody n.text) .method m.name) ++
            declaredMethods (.classBody n.text) ms := rfl
      rw [hclass, List.map_append, hmethods]
      simp [Item.entries, ClassDef.members, Declaration.entry, Declaration.ofName, Function.comp_def]

theorem references_item {i : Item} (h : i.Flat) :
    i.references .file = i.uses.map Use.reference := by
  cases i with
  | use | var => rfl
  | function _ r =>
      rw [Item.references, Part.referredFunction_eq, Item.uses, List.map_map]
      exact references_routine h
  | classDef d =>
      obtain ⟨t, n, parent, as, ms, closing⟩ := d
      have hclass : Item.references .file (.classDef ⟨t, n, parent, as, ms, closing⟩) =
          referredMethods (.classBody n.text) ms := rfl
      rw [hclass, referredMethods_eq, Item.uses, List.map_flatMap]
      refine List.flatMap_congr fun m hm => ?_
      rw [Part.referredMethod_eq, List.map_map]
      exact references_routine (h m hm)

end Names

namespace Program

variable {p : Program}

theorem entries_eq (h : ∀ i ∈ p.items, i.Flat) :
    p.declarations.map Declaration.entry = p.items.flatMap Item.entries := by
  rw [declarations, (Names.walks_stmts .file p.statements).1, List.map_flatMap]
  exact List.flatMap_congr fun i hi => Names.entries_item (h i hi)

theorem references_eq (h : ∀ i ∈ p.items, i.Flat) :
    p.references = p.uses.map Use.reference := by
  rw [references, (Names.walks_stmts .file p.statements).2, uses, List.map_flatMap]
  exact List.flatMap_congr fun i hi => Names.references_item (h i hi)

end Program

end Clipper
