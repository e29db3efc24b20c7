import Clipper.Proofs.Resolution.Undeclared
import Mathlib.Data.List.Flatten

/-!
Which names are reported as declared twice. A scope is known by the names of the functions,
classes and methods around it, so that two scopes of one name count as one: the later of two
routines of one name, which is itself reported, goes on where the first has left off, and so
does one whose name could not be read.
-/

namespace Clipper

/-- A function or a class of a file, or a method of a class, with its number among its
siblings, which tells it from others of the same name. -/
structure Site where
  number : Nat
  name : Name
  deriving DecidableEq

/-- A declared name with the sites it is declared in, from the outside. The file itself is not
a site. -/
structure Placed where
  sites : List Site
  name : Name
  deriving DecidableEq

namespace Item

/-- What an item of a file declares, itself included. -/
def placed (number : Nat) : Item → List Placed
  | use _ => []
  | var n => [⟨[], n⟩]
  | function _ r => ⟨[], r.name⟩ :: r.locals.map (⟨[⟨number, r.name⟩], ·⟩)
  | classDef d =>
      ⟨[], d.name⟩ :: d.members.map (⟨[⟨number, d.name⟩], ·⟩) ++
        d.methods.zipIdx.flatMap fun m =>
          m.1.locals.map (⟨[⟨number, d.name⟩, ⟨m.2, m.1.name⟩], ·⟩)

end Item

/-- All declarations of a program, each in its place. -/
def Program.placed (p : Program) : List Placed :=
  p.items.zipIdx.flatMap fun i => i.1.placed i.2

/-! ### Keys by places -/

namespace Placed

/-- The names that a key is made of. -/
def words (d : Placed) : List String := d.sites.map (·.name.text) ++ [d.name.text]

def key (d : Placed) : String := ".".intercalate d.words

/-- Without points in the names a key tells what it is made of. -/
theorem words_inj {d d' : Placed} (hd : ∀ w ∈ d.words, Pointless w)
    (hd' : ∀ w ∈ d'.words, Pointless w) (h : d.key = d'.key) : d.words = d'.words := by
  have hsplit : ∀ {d : Placed}, (∀ w ∈ d.words, Pointless w) →
      d.key.toList.splitOn '.' = d.words.map String.toList := by
    intro d hd
    rw [key, String.toList_intercalate]
    apply List.splitOn_intercalate
    · rintro _ hw
      obtain ⟨w, hmem, rfl⟩ := List.mem_map.mp hw
      exact hd w hmem
    · simp [words]
  have hwords : d.words.map String.toList = d'.words.map String.toList := by
    rw [← hsplit hd, ← hsplit hd', h]
  exact List.map_injective_iff.mpr (fun _ _ => String.toList_inj.mp) hwords

@[simp] theorem key_file (n : Name) : key ⟨[], n⟩ = Scope.file.key n.text := by
  simp [key, words, Scope.key, Scope.isFile]

@[simp] theorem key_function (k : Nat) (f n : Name) :
    key ⟨[⟨k, f⟩], n⟩ = (Scope.function f.text).key n.text := by
  simp [key, words, Scope.key, Scope.isFile, Scope.name]

/-- A key does not tell a class from a function. -/
theorem key_classBody (k : Nat) (c n : Name) :
    key ⟨[⟨k, c⟩], n⟩ = (Scope.classBody c.text).key n.text := by
  simp [Scope.key, Scope.isFile, Scope.name]

@[simp] theorem key_method (k j : Nat) (c m n : Name) :
    key ⟨[⟨k, c⟩, ⟨j, m⟩], n⟩ = (Scope.method c.text m.text).key n.text := by
  simp [key, words, Scope.key, Scope.isFile, Scope.name, String.append_assoc]

end Placed

namespace Item

/-- The keys under which an item declares names, and the names. -/
theorem keyed_placed (number : Nat) (i : Item) :
    (i.placed number).map (fun d => (d.key, d.name)) =
      i.entries.map fun e => (e.1.key e.2.text, e.2) := by
  cases i with
  | use n => rfl
  | var n => simp [placed, entries]
  | function b r => simp [placed, entries, Function.comp_def]
  | classDef d =>
      have hmethods : ∀ m : Routine × Nat,
          (m.1.locals.map fun n => (Placed.key ⟨[⟨number, d.name⟩, ⟨m.2, m.1.name⟩], n⟩, n)) =
            m.1.locals.map fun n =>
              ((Scope.method d.name.text m.1.name.text).key n.text, n) := fun m => by
        simp only [Placed.key_method]
      simp only [placed, entries, List.map_append, List.map_cons, List.map_map, Function.comp_def,
        Placed.key_file, Placed.key_classBody, List.map_flatMap, hmethods]
      rw [← List.zipIdx_map_fst 0 d.methods, List.flatMap_map, List.zipIdx_map_fst]

end Item

namespace Program

variable {p : Program}

theorem keyed_placed (h : ∀ i ∈ p.items, i.Flat) :
    p.placed.map (fun d => (d.key, d.name)) = p.declarations.map fun d => (d.key, d.name) := by
  have hentries := congrArg (List.map fun e => (e.1.key e.2.text, e.2)) (entries_eq h)
  rw [List.map_map, List.map_flatMap] at hentries
  rw [placed, List.map_flatMap]
  simp only [Item.keyed_placed]
  refine Eq.trans ?_ hentries.symm
  rw [← List.zipIdx_map_fst 0 p.items, List.flatMap_map, List.zipIdx_map_fst]

end Program

/-! ### Sites of one name -/

/-- What comes in a certain order comes so in every list with the same images. -/
theorem pair_sublist_of_map {α β γ : Type} {l : List α} {l' : List β} {f : α → γ} {g : β → γ}
    (h : l.map f = l'.map g) {a a' : α} (hsub : [a, a'].Sublist l) :
    ∃ b b', [b, b'].Sublist l' ∧ f a = g b ∧ f a' = g b' := by
  have himage := hsub.map f
  rw [h] at himage
  obtain ⟨bs, hbs, heq⟩ := List.sublist_map_iff.mp himage
  obtain ⟨b, bs', rfl, hb, hrest⟩ := List.map_eq_cons_iff.mp heq.symm
  obtain ⟨b', rfl, hb'⟩ := List.map_eq_singleton_iff.mp hrest
  exact ⟨b, b', hbs, hb.symm, hb'.symm⟩

/-- Of two numbered members the one with the smaller number comes first. -/
theorem sublist_zipIdx {α : Type} {l : List α} {x y : α × Nat} (hx : x ∈ l.zipIdx)
    (hy : y ∈ l.zipIdx) (h : x.2 < y.2) : [x, y].Sublist l.zipIdx := by
  have hpairwise : l.zipIdx.Pairwise fun a b => a.2 < b.2 := by
    rw [← List.pairwise_map (R := (· < ·)), List.zipIdx_map_snd]
    exact List.pairwise_lt_range'
  obtain ⟨pre, post, hl⟩ := List.append_of_mem hx
  rw [hl] at hy hpairwise ⊢
  refine (List.cons_sublist_cons.mpr (List.singleton_sublist.mpr ?_)).trans
    (List.sublist_append_right _ _)
  rcases List.mem_append.mp hy with hy | hy
  · have := (List.pairwise_append.mp hpairwise).2.2 y hy x List.mem_cons_self
    omega
  · rcases List.mem_cons.mp hy with rfl | hy
    · omega
    · exact hy

namespace Item

/-- The sites of what an item declares. -/
inductive Sites (number : Nat) : Item → List Site → Prop
  | file {i : Item} : Sites number i []
  | routine {i : Item} {n : Name} : i.routine? = some n → Sites number i [⟨number, n⟩]
  | method {d : ClassDef} {m : Routine} {j : Nat} : (m, j) ∈ d.methods.zipIdx →
      Sites number (.classDef d) [⟨number, d.name⟩, ⟨j, m.name⟩]

theorem sites_of_mem_placed {number : Nat} {i : Item} {d : Placed} (h : d ∈ i.placed number) :
    Sites number i d.sites := by
  cases i with
  | use n => cases h
  | var n =>
      obtain rfl := List.mem_singleton.mp h
      exact .file
  | function b r =>
      rcases List.mem_cons.mp h with rfl | h
      · exact .file
      · obtain ⟨n, -, rfl⟩ := List.mem_map.mp h
        exact .routine rfl
  | classDef c =>
      rcases List.mem_append.mp h with h | h
      · rcases List.mem_cons.mp h with rfl | h
        · exact .file
        · obtain ⟨n, -, rfl⟩ := List.mem_map.mp h
          exact .routine rfl
      · obtain ⟨m, hm, h⟩ := List.mem_flatMap.mp h
        obtain ⟨n, -, rfl⟩ := List.mem_map.mp h
        exact .method hm

theorem routine_mem_placed {number : Nat} {i : Item} {n : Name} (h : i.routine? = some n) :
    ⟨[], n⟩ ∈ i.placed number := by
  cases i <;> cases h <;> simp [placed]

end Item

namespace Item

/-- Every site is declared itself. -/
theorem declared_of_sites {number : Nat} {i : Item} {ss : List Site} (h : Sites number i ss) :
    ∀ s ∈ ss, ∃ around, ⟨around, s.name⟩ ∈ i.placed number := by
  cases h with
  | file => exact fun _ h => nomatch h
  | routine hn =>
      rw [List.forall_mem_singleton]
      exact ⟨[], routine_mem_placed hn⟩
  | @method d m j hm =>
      rw [List.forall_mem_cons, List.forall_mem_singleton]
      refine ⟨⟨[], routine_mem_placed rfl⟩, [⟨number, d.name⟩], ?_⟩
      apply List.mem_append_left
      apply List.mem_cons_of_mem
      refine List.mem_map_of_mem (List.mem_append_right _ (List.mem_map_of_mem ?_))
      exact (List.mem_zipIdx' hm).2 ▸ List.getElem_mem _

end Item

/-- Two declarations under one key, one before the other. -/
def Program.Rivals (p : Program) (d d' : Placed) : Prop :=
  d.key = d'.key ∧ ([d, d'].Sublist p.placed ∨ [d', d].Sublist p.placed)

namespace Program

/-- Functions and classes of a name are declared under the same key. -/
theorem rivals_of_items {p : Program} {i i' : Item × Nat} (hi : i ∈ p.items.zipIdx)
    (hi' : i' ∈ p.items.zipIdx) (hne : i.2 ≠ i'.2) {n n' : Name} (hn : i.1.routine? = some n)
    (hn' : i'.1.routine? = some n') (htext : n.text = n'.text) :
    p.Rivals ⟨[], n⟩ ⟨[], n'⟩ := by
  have hsublist : ∀ {i i' : Item × Nat} {n n' : Name}, i ∈ p.items.zipIdx → i' ∈ p.items.zipIdx →
      i.2 < i'.2 → i.1.routine? = some n → i'.1.routine? = some n' →
      [(⟨[], n⟩ : Placed), ⟨[], n'⟩].Sublist p.placed := by
    intro i i' n n' hi hi' hlt hn hn'
    refine List.Sublist.trans ?_ ((sublist_zipIdx hi hi' hlt).flatMap _)
    simpa using (List.singleton_sublist.mpr (Item.routine_mem_placed hn)).append
      (List.singleton_sublist.mpr (Item.routine_mem_placed hn'))
  refine ⟨by simp [htext], ?_⟩
  rcases Nat.lt_or_gt_of_ne hne with hlt | hlt
  · exact .inl (hsublist hi hi' hlt hn hn')
  · exact .inr (hsublist hi' hi hlt hn' hn)

/-- So are methods of a name in one class. -/
theorem rivals_of_methods {p : Program} {c : ClassDef} {k : Nat}
    (hc : (.classDef c, k) ∈ p.items.zipIdx)
    {m m' : Routine × Nat} (hm : m ∈ c.methods.zipIdx) (hm' : m' ∈ c.methods.zipIdx)
    (hne : m.2 ≠ m'.2) (htext : m.1.name.text = m'.1.name.text) :
    p.Rivals ⟨[⟨k, c.name⟩], m.1.name⟩ ⟨[⟨k, c.name⟩], m'.1.name⟩ := by
  have hsublist : ∀ {m m' : Routine × Nat}, m ∈ c.methods.zipIdx → m' ∈ c.methods.zipIdx →
      m.2 < m'.2 →
      [(⟨[⟨k, c.name⟩], m.1.name⟩ : Placed), ⟨[⟨k, c.name⟩], m'.1.name⟩].Sublist p.placed := by
    intro m m' hm hm' hlt
    have hmembers : [m.1.name, m'.1.name].Sublist c.members := by
      have hnames := ((sublist_zipIdx hm hm' hlt).map (·.1.name)).trans
        (List.sublist_append_right (c.attributes.map Attribute.name) _)
      have hfst : c.methods.zipIdx.map (·.1.name) = c.methods.map Routine.name := by
        rw [← List.zipIdx_map_fst 0 c.methods, List.map_map, List.zipIdx_map_fst]
        rfl
      rw [hfst] at hnames
      exact hnames
    have hplaced := ((hmembers.map (Placed.mk [⟨k, c.name⟩])).cons ⟨[], c.name⟩).trans
      (List.sublist_append_left _ (c.methods.zipIdx.flatMap fun m =>
        m.1.locals.map (Placed.mk [⟨k, c.name⟩, ⟨m.2, m.1.name⟩])))
    have hclass := (List.singleton_sublist.mpr hc).flatMap fun i : Item × Nat => i.1.placed i.2
    rw [List.flatMap_singleton] at hclass
    exact hplaced.trans hclass
  refine ⟨by simp [htext], ?_⟩
  rcases Nat.lt_or_gt_of_ne hne with hlt | hlt
  · exact .inl (hsublist hm hm' hlt)
  · exact .inr (hsublist hm' hm hlt)

/-- Where sites of the same names differ, there are rivals among them. -/
theorem rivals_of_sites {p : Program} {i i' : Item × Nat} (hi : i ∈ p.items.zipIdx)
    (hi' : i' ∈ p.items.zipIdx) {ss ss' : List Site} (hs : i.1.Sites i.2 ss)
    (hs' : i'.1.Sites i'.2 ss') (htexts : ss.map (·.name.text) = ss'.map (·.name.text))
    (hne : ss ≠ ss') :
    ∃ s ∈ ss, ∃ s' ∈ ss', s.name.text = s'.name.text ∧
      ∃ around around', p.Rivals ⟨around, s.name⟩ ⟨around', s'.name⟩ := by
  obtain ⟨i, k⟩ := i
  obtain ⟨i', k'⟩ := i'
  have hsame : k = k' → i = i' := by
    rintro rfl
    rw [List.mem_zipIdx_iff_getElem?] at hi hi'
    exact Option.some.inj (hi.symm.trans hi')
  cases hs with
  | file =>
      obtain rfl := List.map_eq_nil_iff.mp htexts.symm
      exact absurd rfl hne
  | routine hn =>
      cases hs' with
      | file => cases htexts
      | method => cases (List.cons.inj htexts).2
      | routine hn' =>
          have hk : k ≠ k' := by
            rintro rfl
            obtain rfl := hsame rfl
            obtain rfl := Option.some.inj (hn.symm.trans hn')
            exact hne rfl
          have htext := (List.cons.inj htexts).1
          exact ⟨_, List.mem_cons_self, _, List.mem_cons_self, htext, _, _,
            rivals_of_items hi hi' hk hn hn' htext⟩
  | @method c m j hm =>
      cases hs' with
      | file => cases htexts
      | routine => cases (List.cons.inj htexts).2
      | @method c' m' j' hm' =>
          obtain ⟨hclass, hmethods⟩ := List.cons.inj htexts
          by_cases hk : k = k'
          · subst hk
            obtain rfl := Item.classDef.inj (hsame rfl)
            have hj : j ≠ j' := by
              rintro rfl
              rw [List.mem_zipIdx_iff_getElem?] at hm hm'
              obtain rfl := Option.some.inj (hm.symm.trans hm')
              exact hne rfl
            have htext := (List.cons.inj hmethods).1
            exact ⟨⟨j, m.name⟩, by simp, ⟨j', m'.name⟩, by simp, htext, _, _,
              rivals_of_methods hi hm hm' hj htext⟩
          · exact ⟨_, List.mem_cons_self, _, List.mem_cons_self, hclass, _, _,
              rivals_of_items hi hi' hk rfl rfl hclass⟩

end Program

/-! ### What is reported -/

namespace Check

/-- A name is reported as one that has been declared before. -/
def Redeclares (c : Check) (n : Name) : Prop :=
  ∃ first, (Fault.redeclared n.text n.token first).diagnostic ∈ c.diagnostics

end Check

section

variable {x : Externals} {source file : String}

theorem pointless_placed {d : Placed} (hd : d ∈ (Parsed.ofSource source file).program.placed) :
    Pointless d.name.text := by
  have hmem : (d.key, d.name) ∈ (Parsed.ofSource source file).program.placed.map
      fun d => (d.key, d.name) := List.mem_map_of_mem hd
  rw [Program.keyed_placed (flat_ofSource source file)] at hmem
  obtain ⟨e, he, heq⟩ := List.mem_map.mp hmem
  have hname : e.name = d.name := (Prod.mk.inj heq).2
  cases hmissing : d.name.isMissing with
  | true =>
      have hempty : d.name.text = "" := by simpa [Name.isMissing] using hmissing
      simp [hempty, Pointless]
  | false =>
      have hentry : e.entry ∈ (Parsed.ofSource source file).program.items.flatMap Item.entries := by
        rw [← Program.entries_eq (flat_ofSource source file)]
        exact List.mem_map_of_mem he
      rw [← hname] at hmissing ⊢
      exact plain_ofSource source file e.entry hentry hmissing

theorem pointless_words {d : Placed} (hd : d ∈ (Parsed.ofSource source file).program.placed) :
    ∀ w ∈ d.words, Pointless w := by
  intro w hw
  rcases List.mem_append.mp hw with hw | hw
  · obtain ⟨s, hs, rfl⟩ := List.mem_map.mp hw
    obtain ⟨i, hi, hd⟩ := List.mem_flatMap.mp hd
    obtain ⟨around, hmem⟩ := Item.declared_of_sites (Item.sites_of_mem_placed hd) s hs
    exact pointless_placed (List.mem_flatMap.mpr ⟨i, hi, hmem⟩)
  · obtain rfl := List.mem_singleton.mp hw
    exact pointless_placed hd

/-- Of two rivals one is reported, if their name could be read. -/
theorem Check.redeclares_of_rivals {d d' : Placed}
    (h : (Parsed.ofSource source file).program.Rivals d d') (hd : d.name.isMissing = false)
    (hd' : d'.name.isMissing = false) :
    (ofSource x source file).Redeclares d.name ∨ (ofSource x source file).Redeclares d'.name := by
  have hreport : ∀ {d d' : Placed}, [d, d'].Sublist (Parsed.ofSource source file).program.placed →
      d.key = d'.key → d.name.isMissing = false → d'.name.isMissing = false →
      (ofSource x source file).Redeclares d'.name := by
    intro d d' hsub hkey hd hd'
    obtain ⟨e, e', hes, heq, heq'⟩ :=
      pair_sublist_of_map (Program.keyed_placed (flat_ofSource source file)) hsub
    obtain ⟨hk, hn⟩ := Prod.mk.inj heq
    obtain ⟨hk', hn'⟩ := Prod.mk.inj heq'
    rw [hn] at hd
    rw [hn'] at hd' ⊢
    obtain ⟨first, hf⟩ := Analysis.reported_of_sublist hes hd hd' (hk.symm.trans (hkey.trans hk'))
    exact ⟨first, List.mem_append_right _ (List.mem_map_of_mem (List.mem_append_left _ hf))⟩
  rcases h.2 with hsub | hsub
  · exact .inr (hreport hsub h.1 hd hd')
  · exact .inl (hreport hsub h.1.symm hd' hd)

/-- A name is reported as declared again only if an earlier declaration of it stands in the same
sites. Else sites of one name have been taken for one another: one of the two is itself
reported, or neither name could be read. -/
theorem redeclared_diagnostics (x : Externals) (source file : String) {D : Diagnostic}
    (hD : D ∈ (Check.ofSource x source file).diagnostics) (hcode : D.code = some .redeclared) :
    ∃ d₀ d, [d₀, d].Sublist (Parsed.ofSource source file).program.placed ∧
      D = (Fault.redeclared d.name.text d.name.token d₀.name.token).diagnostic ∧
      (d₀.sites = d.sites ∨
        ∃ s₀ ∈ d₀.sites, ∃ s ∈ d.sites,
          (s₀.name.isMissing = true ∧ s.name.isMissing = true) ∨
          (Check.ofSource x source file).Redeclares s₀.name ∨
          (Check.ofSource x source file).Redeclares s.name) := by
  rcases List.mem_append.mp hD with hD | hD
  · obtain ⟨f, hf, rfl⟩ := List.mem_map.mp hD
    rw [code_parsed hf] at hcode
    cases hcode
  obtain ⟨f, hf, rfl⟩ := List.mem_map.mp hD
  rcases List.mem_append.mp hf with hf | hf
  · obtain ⟨e₀, e, hsub, hmissing₀, hmissing, hkey, rfl⟩ := Analysis.earlier_of_mem_collect hf
    obtain ⟨d₀, d, hsub, heq₀, heq⟩ :=
      pair_sublist_of_map (Program.keyed_placed (flat_ofSource source file)).symm hsub
    obtain ⟨hk₀, hn₀⟩ := Prod.mk.inj heq₀
    obtain ⟨hk, hn⟩ := Prod.mk.inj heq
    refine ⟨d₀, d, hsub, by rw [hn₀, hn], ?_⟩
    have hd₀ := hsub.subset (List.mem_cons_self ..)
    have hd := hsub.subset (List.mem_cons_of_mem d₀ (List.mem_cons_self ..))
    have hwords : d₀.words = d.words :=
      Placed.words_inj (pointless_words hd₀) (pointless_words hd) (by rw [← hk₀, ← hk, hkey])
    by_cases hsites : d₀.sites = d.sites
    · exact .inl hsites
    obtain ⟨i₀, hi₀, hd₀⟩ := List.mem_flatMap.mp hd₀
    obtain ⟨i, hi, hd⟩ := List.mem_flatMap.mp hd
    obtain ⟨s₀, hs₀, s, hs, htext, _, _, hrivals⟩ :=
      Program.rivals_of_sites hi₀ hi (Item.sites_of_mem_placed hd₀) (Item.sites_of_mem_placed hd)
        (List.append_inj' hwords rfl).1 hsites
    refine .inr ⟨s₀, hs₀, s, hs, ?_⟩
    have hsame : s₀.name.isMissing = s.name.isMissing := by rw [Name.isMissing, htext, Name.isMissing]
    cases hread : s.name.isMissing with
    | true => exact .inl ⟨hsame.trans hread, rfl⟩
    | false =>
        have hreported := Check.redeclares_of_rivals (x := x) hrivals (hsame.trans hread) hread
        exact .inr hreported
  · obtain ⟨r, -, hr⟩ := List.mem_filterMap.mp hf
    unfold Analysis.undeclared? at hr
    split at hr <;> cases hr
    cases hcode

end

/-- The variable of a function has the name of its parameter. -/
theorem redeclared_diagnostics_parameter :
    ∃ D ∈ (Check.ofSource .none "Function F(a)\nLocal a" "t.prw").diagnostics,
      D.code = some .redeclared ∧
      ∃ d₀ d, [d₀, d].Sublist (Parsed.ofSource "Function F(a)\nLocal a" "t.prw").program.placed ∧
        D = (Fault.redeclared d.name.text d.name.token d₀.name.token).diagnostic ∧
        (d₀.sites = d.sites ∨
          ∃ s₀ ∈ d₀.sites, ∃ s ∈ d.sites,
            (s₀.name.isMissing = true ∧ s.name.isMissing = true) ∨
            (Check.ofSource .none "Function F(a)\nLocal a" "t.prw").Redeclares s₀.name ∨
            (Check.ofSource .none "Function F(a)\nLocal a" "t.prw").Redeclares s.name) := by
  have hD : (Fault.redeclared "a" ⟨.identifier, "a", ⟨20, 21⟩, 2, 7, "t.prw"⟩
      ⟨.identifier, "a", ⟨11, 12⟩, 1, 12, "t.prw"⟩).diagnostic ∈
      (Check.ofSource .none "Function F(a)\nLocal a" "t.prw").diagnostics := by
    decide +kernel
  exact ⟨_, hD, rfl, redeclared_diagnostics .none _ _ hD rfl⟩

/-- The parameters of two functions whose names could not be read are taken for names of one
scope, though neither function is reported as declared twice. -/
theorem redeclared_across_functions :
    ∃ D ∈ (Check.ofSource .none "Function (a)\nFunction (a)" "t.prw").diagnostics,
      D.code = some .redeclared ∧
      ∀ d₀ ∈ (Parsed.ofSource "Function (a)\nFunction (a)" "t.prw").program.placed,
      ∀ d ∈ (Parsed.ofSource "Function (a)\nFunction (a)" "t.prw").program.placed,
        D = (Fault.redeclared d.name.text d.name.token d₀.name.token).diagnostic →
          d₀.sites ≠ d.sites ∧ ∀ s ∈ d₀.sites ++ d.sites,
            ¬(Check.ofSource .none "Function (a)\nFunction (a)" "t.prw").Redeclares s.name := by
  have hD : (Fault.redeclared "a" ⟨.identifier, "a", ⟨23, 24⟩, 2, 11, "t.prw"⟩
      ⟨.identifier, "a", ⟨10, 11⟩, 1, 11, "t.prw"⟩).diagnostic ∈
      (Check.ofSource .none "Function (a)\nFunction (a)" "t.prw").diagnostics := by
    decide +kernel
  have hsites : ∀ d₀ ∈ (Parsed.ofSource "Function (a)\nFunction (a)" "t.prw").program.placed,
      ∀ d ∈ (Parsed.ofSource "Function (a)\nFunction (a)" "t.prw").program.placed,
        (Fault.redeclared "a" ⟨.identifier, "a", ⟨23, 24⟩, 2, 11, "t.prw"⟩
          ⟨.identifier, "a", ⟨10, 11⟩, 1, 11, "t.prw"⟩).diagnostic =
            (Fault.redeclared d.name.text d.name.token d₀.name.token).diagnostic →
          d₀.sites ≠ d.sites ∧ ∀ s ∈ d₀.sites ++ d.sites, s.name.text = "" := by
    decide +kernel
  have hmessages : ∀ D ∈ (Check.ofSource .none "Function (a)\nFunction (a)" "t.prw").diagnostics,
      D.message ≠ "'' já foi declarado neste escopo" := by
    decide +kernel
  refine ⟨_, hD, rfl, fun d₀ hd₀ d hd heq => ?_⟩
  obtain ⟨hne, hempty⟩ := hsites d₀ hd₀ d hd heq
  refine ⟨hne, fun s hs hreported => ?_⟩
  obtain ⟨first, hmem⟩ := hreported
  rw [hempty s hs] at hmem
  exact hmessages _ hmem rfl

end Clipper
