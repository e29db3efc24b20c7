import Clipper.Proofs.Faults.Nodes
import Clipper.Proofs.Grammar.Closers
import Clipper.Proofs.Likeness.Program
import Clipper.Proofs.Resolution.Entries

/-!
Where functions and classes are declared. A routine has none in its body, however deep in
the conditionals, loops, first values, arguments and arrays of it one looks. So those of a
file are the ones that stand outside all routines.
-/

namespace Clipper

/-- A declaration of a function or a class. -/
def Node.declaration? : Node → Option Stmt
  | statement s => if s.isDeclaration then some s else none
  | _ => none

/-- The routines that a node introduces: a function, or the methods of a class. -/
def Node.routines : Node → List Routine
  | statement (.function _ r) => [r]
  | statement (.classDef d) => d.methods
  | _ => []

def Item.declaration? : Item → Option Stmt
  | function isStatic r => some (.function isStatic r)
  | classDef d => some (.classDef d)
  | _ => none

/-- The functions and the methods of a program, at whatever depth they stand. -/
def Program.routines (p : Program) : List Routine := p.nodes.flatMap Node.routines

/-- The functions and classes that are declared inside a routine. -/
def Routine.declarations (r : Routine) : List Stmt :=
  (Nodes.block r.body).filterMap Node.declaration?

namespace Part

def nodes : Part → List Node
  | expression e => Nodes.expression e
  | expressions es => Nodes.expressions es
  | expressionIfAny e => Nodes.ifAny e
  | guarded g => Nodes.guarded g
  | branches gs => Nodes.branches gs
  | block b => Nodes.block b
  | blockIfAny b => Nodes.blockIfAny b
  | statements ss => Nodes.stmts ss
  | statement t => Nodes.stmt t
  | routine r => Nodes.routine r
  | routines ms => Nodes.routines ms
  | classDefinition d => Nodes.classDefinition d

/-- Some nodes hold the declarations of some items and no others, and no routine among them
holds one. -/
structure Shows (nodes : List Node) (items : List Item) : Prop where
  declared : nodes.filterMap Node.declaration? = items.filterMap Item.declaration?
  routines : ∀ r ∈ nodes.flatMap Node.routines, r.declarations = []

namespace Shows

variable {ns ns' : List Node} {is is' : List Item} {n : Node} {i : Item}

theorem nil : Shows [] [] := ⟨rfl, fun _ h => nomatch h⟩

theorem append (h : Shows ns is) (h' : Shows ns' is') : Shows (ns ++ ns') (is ++ is') where
  declared := by rw [List.filterMap_append, List.filterMap_append, h.declared, h'.declared]
  routines := by
    rw [List.flatMap_append]
    exact List.forall_mem_append.mpr ⟨h.routines, h'.routines⟩

/-- A node that declares nothing by itself. -/
theorem plain (h : n.declaration? = none) (h' : n.routines = []) : Shows [n] [] where
  declared := by simp [h]
  routines := by simp [h']

theorem front (h : Shows ns is) (hn : n.declaration? = none) (hn' : n.routines = []) :
    Shows (n :: ns) is :=
  (plain hn hn').append h

theorem before (h : Shows ns is) (h' : Shows ns' []) : Shows (ns ++ ns') is :=
  List.append_nil is ▸ h.append h'

theorem back (h : Shows ns is) (hn : n.declaration? = none) (hn' : n.routines = []) :
    Shows (ns ++ [n]) is :=
  h.before (plain hn hn')

theorem item (h : Shows ns is) (hi : i.declaration? = none) : Shows ns (i :: is) :=
  ⟨by rw [h.declared, List.filterMap_cons, hi], h.routines⟩

theorem names {α : Type} (f : α → Name) (xs : List α) : Shows (xs.map fun x => .name (f x)) [] where
  declared := by simp [List.filterMap_map, Function.comp_def, Node.declaration?]
  routines := by simp [List.flatMap_map, Node.routines]

end Shows

theorem filterMap_of_local {is : List Item} (h : ∀ i ∈ is, i.isLocal = true) :
    is.filterMap Item.declaration? = [] := by
  rw [List.filterMap_eq_nil_iff]
  intro i hi
  cases i with
  | use | var => rfl
  | function | classDef => cases h _ hi

theorem declarations_routine (r : Routine) :
    (Nodes.routine r).filterMap Node.declaration? = r.declarations := by
  obtain ⟨t, n, ps, b, closing⟩ := r
  have hnames := (Shows.names id (n :: ps)).declared
  change ((n :: ps).map Node.name ++ Nodes.block b).filterMap Node.declaration? = _
  rw [List.filterMap_append]
  exact congrArg (· ++ (Nodes.block b).filterMap Node.declaration?) hnames

theorem declarations_routines (rs : List Routine) :
    (Nodes.routines rs).filterMap Node.declaration? = rs.flatMap Routine.declarations := by
  induction rs with
  | nil => rfl
  | cons r rs ih =>
      rw [Nodes.routines, List.filterMap_append, declarations_routine, ih, List.flatMap_cons]

/-- A function of a file, once it is known that nothing is declared in it. -/
theorem Shows.function {isStatic : Bool} {r : Routine}
    (h : Shows (Nodes.routine r) (Items.block r.body))
    (hlocal : ∀ i ∈ Items.block r.body, i.isLocal = true) :
    Shows (Nodes.stmt (.function isStatic r)) (Items.stmt (.function isStatic r)) := by
  have hnone : (Nodes.routine r).filterMap Node.declaration? = [] :=
    h.declared.trans (filterMap_of_local hlocal)
  constructor
  · rw [Nodes.stmt, List.filterMap_append, hnone]
    rfl
  · rw [Nodes.stmt, List.flatMap_append, List.forall_mem_append]
    refine ⟨h.routines, List.forall_mem_singleton.mpr ?_⟩
    rw [← declarations_routine, hnone]

theorem Shows.classDef {d : ClassDef}
    (h : Shows (Nodes.classDefinition d) (d.methods.flatMap fun m => Items.block m.body))
    (hlocal : ∀ i ∈ d.methods.flatMap fun m => Items.block m.body, i.isLocal = true) :
    Shows (Nodes.stmt (.classDef d)) (Items.stmt (.classDef d)) := by
  have hnone : (Nodes.classDefinition d).filterMap Node.declaration? = [] :=
    h.declared.trans (filterMap_of_local hlocal)
  constructor
  · rw [Nodes.stmt, List.filterMap_append, hnone]
    rfl
  · rw [Nodes.stmt, List.flatMap_append, List.forall_mem_append]
    refine ⟨h.routines, ?_⟩
    obtain ⟨t, n, parent, attributes, ms, closing⟩ := d
    have hmethods : ms.flatMap Routine.declarations = [] := by
      rw [← declarations_routines]
      exact (List.append_eq_nil_iff.mp (List.filterMap_append .. ▸ hnone)).2
    simpa [Node.routines] using List.flatMap_eq_nil_iff.mp hmethods

/-- The declarations among the nodes of a part are those among its items. -/
theorem Alike.shows {K : Correspondence} {nested : Bool} {x y : Part} (h : Alike K nested x y) :
    Shows x.nodes x.items := by
  induction h with
  | noExpressions | noExpression | noBranches | emptyBlock | noBlock | noStatements | noRoutines =>
      exact .nil
  | integer | float | string | date | boolean | nil | missing => exact .plain rfl rfl
  | name => exact ((Shows.plain rfl rfl).front rfl rfl).item rfl
  | ownMember =>
      exact (((Shows.plain rfl rfl).front rfl rfl).append
        ((Shows.plain rfl rfl).front rfl rfl)).item rfl
  | array _ _ ih | unary _ _ ih | whileLoop _ _ ih | ret _ _ ih | expression _ _ ih =>
      exact ih.back rfl rfl
  | member _ _ _ ih => exact ih.before ((Shows.plain rfl rfl).front rfl rfl)
  | someExpression _ ih | block _ _ ih | someBlock _ ih => exact ih
  | binary _ _ _ ih ih' | call _ _ _ ih ih' | index _ _ _ ih ih' | assign _ _ _ ih ih' =>
      exact (ih.append ih').back rfl rfl
  | expressions _ _ ih ih' | guarded _ _ _ ih ih' | branches _ _ ih ih'
  | statements _ _ ih ih' | routines _ _ ih ih' => exact ih.append ih'
  | branch _ _ _ _ ih₁ ih₂ ih₃ => exact ((ih₁.append ih₂).append ih₃).back rfl rfl
  | forLoop _ _ _ _ _ _ _ ih₁ ih₂ ih₃ ih₄ =>
      exact ((((ih₁.append ih₂).append ih₃).append ih₄).back rfl rfl |>.front rfl rfl).item rfl
  | «variable» _ _ _ ih => exact ((ih.back rfl rfl).front rfl rfl).item rfl
  | routine _ _ _ _ _ ih => exact ((Shows.names id _).append ih).front rfl rfl
  | classDefinition _ _ _ _ _ _ ih =>
      exact (((Shows.names id _).append (.names Attribute.name _)).append ih).front rfl rfl
  | function hr ih => exact .function ih fun i hi => (hr.flat i hi).2 rfl
  | classDef hd ih => exact .classDef ih fun i hi => (hd.flat i hi).2 rfl

end Part

open Grammar in
/-- No function and no class is declared in the body of a routine, however deep in it: the body
reads the same as a block in which declarations are allowed, since it ends where one begins.
The functions and classes of a program are those that stand outside all routines, at file
level or in blocks there. -/
theorem Parsed.declarations_outside_routines (source file : String) :
    (Parsed.ofSource source file).program.routines.flatMap Routine.declarations = [] ∧
      (Parsed.ofSource source file).program.nodes.filterMap Node.declaration? =
        (Parsed.ofSource source file).program.items.filterMap Item.declaration? ∧
      ∀ c : Context,
        block (plainStatement (expression maxDepth)) c.insideRoutine functionClosers =
            block (statement (expression maxDepth)) c.outside functionClosers ∧
          block (plainStatement (expression maxDepth)) (c.enter classClosers).insideRoutine
              methodClosers =
            block (statement (expression maxDepth)) (c.enter classClosers).outside
              methodClosers := by
  have hshows := (Correspondence.statements_of_forall₂ (Parsed.alike_self source file).1).shows
  refine ⟨List.flatMap_eq_nil_iff.mpr hshows.routines, hshows.declared, fun c => ?_⟩
  exact ⟨function_body maxDepth c, method_body maxDepth c⟩

end Clipper
