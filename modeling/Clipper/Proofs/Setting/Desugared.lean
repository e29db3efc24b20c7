import Clipper.Proofs.Setting.Declarations

/-!
Two texts for one tree. A list of subscripts is read as lists of one subscript each, and a word of
storage with a list of declarators as that many lines. What stands in the lists has to be over
where the bracket, the comma or the line behind it comes: a string that is not closed goes on.
-/

namespace Clipper

open Grammar Layout

/-! ### No declarators -/

namespace Grammar

/-- Behind a word of storage at the end of a text nothing is declared. -/
theorem storage_alone {e : Expressions} {c : Context} {r r' : Reader} {ss : List Stmt}
    (he : e.Lawful) (hr : r.Sound) (hk : isStorage r.current.kind = true)
    (hend : r.advanced.atEnd = true) (h : Run (statement e c) r ss r') : ss = [] := by
  obtain ⟨_, hwhole, -⟩ := run_wholeStatement.mp h
  obtain ⟨whole, s, hbody, -⟩ := run_recovering.mp hwhole
  have hplain : Run (plain e c) r (ss, whole) s := by
    obtain ⟨hfunction, hclass⟩ :=
      opensFunction_of_plain (r := r) (by simp [opensPlain, hk])
    rw [run_general] at hbody
    simpa [hfunction, hclass] using hbody
  rw [run_plain, if_pos hk] at hplain
  obtain ⟨ds, b, u, hds, hout⟩ := run_variableList.mp hplain
  have hnone : ∀ {d : Name × Option Expr} {v : Reader},
      ¬Yields (declarator e c) r.advanced d v := fun hd => by
    have hopen := Reader.atEnd_of_kind (yields_declarator.mp hd).1 (by simp)
    rw [hend] at hopen
    cases hopen
  rw [run_listed (steady_declarator he) (Reader.sound_advanced hr)] at hds
  cases hds with
  | refused _ => exact (Prod.mk.inj hout.1).1.symm
  | last hd _ | more hd _ _ => exact absurd hd hnone

end Grammar

theorem Parsed.statements_of_storage {s : TokenStream} {t : Token} (hs : s.Closed)
    (hbody : s.body = [t]) (ht : isStorage t.kind = true) :
    (ofStream s).program.statements = [] := by
  have hr := Reader.sound_ofStream hs
  have hlegal : t.isIllegal = false := by
    rcases kind_of_storage ht with hkind | hkind | hkind <;> simp [Token.isIllegal, hkind]
  have hpending : (Reader.ofStream s).pending = [t] := by
    rw [Reader.pending_ofStream hs, hbody]
    simp [hlegal]
  obtain ⟨_, ⟨hreads, -, -⟩, -⟩ := exists_reads hs
  generalize (ofStream s).program.statements = ss at hreads ⊢
  cases hreads with
  | stop _ => rfl
  | round hopen hx hrest =>
      have hpast := past_topStatement hr hopen hx
      have hcons := Reader.pending_eq_cons hr (by simpa using hopen)
      rw [hpending] at hcons
      obtain ⟨hcurrent, hnil⟩ := List.cons.inj hcons
      have hend := Reader.atEnd_of_pending (Reader.sound_advanced hr) hnil.symm
      obtain rfl := storage_alone (lawful_expression _) hr (hcurrent ▸ ht) hend hx
      cases hrest with
      | stop _ => rfl
      | round hopen' _ _ =>
          have hlength := hpast.shorter
          rw [hpending, List.length_singleton, Nat.lt_one_iff, List.length_eq_zero_iff] at hlength
          have hended := Reader.atEnd_of_pending hpast.onward.sound hlength
          simp [hended] at hopen'
/-! ### Texts -/

section Texts

variable {file source w : String} {v : Word} {ds : List String} {dss : List (List String)}
  {qs : List (Declared file)} {qss : List (List (Declared file))} {cs : List Char}
  {wss : List (List Word)}

theorem Grammar.Listed.legal {ws : List Word} (h : Listed file qs ws)
    (hqs : ∀ q ∈ qs, Legal q.words) : Legal ws := by
  induction h with
  | last q => exact hqs q List.mem_cons_self
  | more q _ ih =>
      rw [List.forall_mem_cons] at hqs
      exact List.forall_mem_append.mpr ⟨hqs.1, legal_cons (ih hqs.2)⟩

theorem Grammar.Rows.legal (h : Rows file v qs wss) (hv : isStorage v.1 = true)
    (hqs : ∀ q ∈ qs, Legal q.words) : ∀ ws ∈ wss, Legal ws := by
  have hfirst : v.1 ≠ .illegal := by
    rcases kind_of_storage hv with hkind | hkind | hkind <;> simp [hkind]
  induction h with
  | nil => exact nofun
  | row hlisted _ ih =>
      rw [List.forall_mem_append] at hqs
      exact List.forall_mem_cons.mpr
        ⟨List.forall_mem_cons.mpr ⟨hfirst, hlisted.legal hqs.1⟩, ih hqs.2⟩

theorem Lines.mem {l : Nat} {ts : List Token} {t : Token} (h : Lines l wss ts) (ht : t ∈ ts) :
    ∃ ws ∈ wss, t.word ∈ ws := by
  induction h with
  | nil => cases ht
  | cons _ _ ih =>
      rcases List.mem_append.mp ht with ht | ht
      · exact ⟨_, List.mem_cons_self, List.mem_map_of_mem ht⟩
      · obtain ⟨ws, hws, ht⟩ := ih ht
        exact ⟨ws, List.mem_cons_of_mem _ hws, ht⟩

/-- A text with these words on its lines declares all the names. -/
theorem Parsed.unplaced_of_rows (h : Rows file v qs wss) (hv : isStorage v.1 = true)
    (hqs : ∀ q ∈ qs, Legal q.words) (hsource : Lexed file true source.toList wss) :
    (ofSource source file).diagnostics = [] ∧ (ofSource source file).program.unplaced =
      ⟨(qs.map Declared.declares).map (declaration file v)⟩ := by
  have hs := TokenStream.closed_ofText file source
  have hlines : Lines 1 wss (TokenStream.ofText file source).body := hsource .start
  have hlegal : ∀ t ∈ (TokenStream.ofText file source).body, t.isIllegal = false := by
    intro t ht
    obtain ⟨ws, hws, hmem⟩ := hlines.mem ht
    exact t.isIllegal_of_legal (h.legal hv hqs ws hws) hmem
  obtain ⟨ss, l, hss, hread⟩ := h.derives 1 hv hlines
    (fun t ht l hline => t.on_of_line ht hline (hlegal t ht)) hs.last_isEnd
  obtain ⟨hnone, hstatements⟩ := parsed_of_strict hs hlegal hread
  rw [← ofSource] at hnone hstatements
  refine ⟨by rw [diagnostics, hnone, List.map_nil], ?_⟩
  rw [Program.unplaced, Relabelling.program, hstatements, hss]

/-- A list of declarators, and what stands behind it. -/
theorem lexed_listed (h : List.Forall₂ (fun d q => Writes file d q.words) ds qs) (hnil : ds ≠ [])
    (hcs : Lexeme.Ends cs) (hrest : Lexed file false cs ([] :: wss)) :
    ∃ ws, Listed file qs ws ∧
      Lexed file false ((", ".intercalate ds).toList ++ cs) (ws :: wss) := by
  induction h with
  | nil => exact absurd rfl hnil
  | @cons d q ds qs hq htail ih =>
      cases htail with
      | nil =>
          have hall : Lexed file false _ _ := hq.lexed hcs hrest
          rw [List.append_nil] at hall
          exact ⟨_, .last q, by rwa [String.intercalate_singleton]⟩
      | cons hq' htail =>
          obtain ⟨ws, hws, hlexed⟩ := ih (List.cons_ne_nil _ _)
          refine ⟨_, .more q hws, ?_⟩
          have hall : Lexed file false _ _ := hq.lexed (ends_cons (by simp)) hlexed.blank.comma
          simpa [String.intercalate_cons_cons] using hall

/-- A word of storage, a list of declarators, and what stands behind them. -/
theorem lexed_row (hw : Writes file w [v])
    (h : List.Forall₂ (fun d q => Writes file d q.words) ds qs) (hnil : ds ≠ [])
    (hcs : Lexeme.Ends cs) (hrest : Lexed file false cs ([] :: wss)) :
    ∃ ws, Listed file qs ws ∧
      Lexed file true ((w ++ " " ++ ", ".intercalate ds).toList ++ cs) ((v :: ws) :: wss) := by
  obtain ⟨ws, hws, hlexed⟩ := lexed_listed h hnil hcs hrest
  have hall : Lexed file true _ _ := hw.lexed (ends_cons (by simp)) hlexed.blank
  exact ⟨ws, hws, by simpa using hall⟩

/-- Lists of declarators on lines of their own. -/
theorem lexed_rows (hw : Writes file w [v])
    (h : List.Forall₂ (fun ds qs => ds ≠ [] ∧
      List.Forall₂ (fun d q => Writes file d q.words) ds qs) dss qss) (hnil : dss ≠ []) :
    ∃ wss, Rows file v qss.flatten wss ∧ Lexed file true
      ("\n".intercalate (dss.map fun ds => w ++ " " ++ ", ".intercalate ds)).toList wss := by
  induction h with
  | nil => exact absurd rfl hnil
  | @cons ds qs dss qss hds htail ih =>
      cases htail with
      | nil =>
          obtain ⟨ws, hws, hlexed⟩ := lexed_row hw hds.2 hds.1 (by rintro _ ⟨⟩) .nil
          rw [List.append_nil] at hlexed
          refine ⟨_, .row hws .nil, ?_⟩
          rwa [List.map_singleton, String.intercalate_singleton]
      | cons _ _ =>
          obtain ⟨wss, hwss, hbelow⟩ := ih (List.cons_ne_nil _ _)
          obtain ⟨ws, hws, hlexed⟩ := lexed_row hw hds.2 hds.1 (ends_cons (by simp)) hbelow.newline
          refine ⟨_, .row hws hwss, ?_⟩
          simpa [String.intercalate_cons_cons] using hlexed

theorem writes_storage (hw : Inline file w) (hwords : words file w = [v])
    (hv : isStorage v.1 = true) : Writes file w [v] := by
  refine ⟨hw, hwords, by simp, fun u hu => ?_⟩
  obtain rfl := List.mem_singleton.mp hu
  rcases kind_of_storage hv with hkind | hkind | hkind <;> simp [hkind]

/-- A list of declarators declares what the declarators do on lines of their own. -/
theorem Parsed.unplaced_declarations (hw : Writes file w [v]) (hv : isStorage v.1 = true)
    (hnil : ds ≠ []) (hds : ∀ d ∈ ds, Declarator file d) :
    (ofSource (w ++ " " ++ ", ".intercalate ds) file).diagnostics = [] ∧
      (ofSource ("\n".intercalate (ds.map fun d => w ++ " " ++ d)) file).diagnostics = [] ∧
      (ofSource (w ++ " " ++ ", ".intercalate ds) file).program.unplaced =
        (ofSource ("\n".intercalate (ds.map fun d => w ++ " " ++ d)) file).program.unplaced := by
  obtain ⟨qs, hqs, hlegal⟩ := exists_written fun d hd => (hds d hd).exists_declared
  -- One list on one line, and as many lists as there are declarators.
  have hone : List.Forall₂ (fun ds qs => ds ≠ [] ∧
      List.Forall₂ (fun d q => Writes file d q.words) ds qs) [ds] [qs] := .cons ⟨hnil, hqs⟩ .nil
  obtain ⟨_, hlist, hlexed⟩ := lexed_rows hw hone (by simp)
  have hsingles : List.Forall₂ (fun ds qs => ds ≠ [] ∧
      List.Forall₂ (fun d q => Writes file d q.words) ds qs) (ds.map ([·])) (qs.map ([·])) := by
    rw [List.forall₂_map_left_iff, List.forall₂_map_right_iff]
    simpa using hqs
  obtain ⟨_, hlines, hlexed'⟩ := lexed_rows hw hsingles (by simpa using hnil)
  have hsame : (qs.map ([·])).flatten = qs := by
    rw [← List.flatMap_def]
    exact List.flatMap_singleton' qs
  rw [List.flatten_singleton] at hlist
  rw [hsame] at hlines
  simp only [List.map_cons, List.map_nil, List.map_map, Function.comp_def,
    String.intercalate_singleton] at hlexed hlexed'
  obtain ⟨hclean, hp⟩ := unplaced_of_rows hlist hv hlegal hlexed
  obtain ⟨hclean', hq⟩ := unplaced_of_rows hlines hv hlegal hlexed'
  exact ⟨hclean, hclean', hp.trans hq.symm⟩

/-- Without declarators nothing is declared. -/
theorem Parsed.unplaced_storage (hw : Writes file w [v]) (hv : isStorage v.1 = true) :
    (ofSource (w ++ " ") file).program.unplaced = (ofSource "" file).program.unplaced := by
  have hall : Lexed file true (w.toList ++ [' ']) [[v] ++ []] :=
    hw.lexed (ends_cons (by simp)) Lexed.nil.blank
  rw [← String.toList_singleton, ← String.toList_append] at hall
  obtain ⟨hwords, -⟩ := (hall .start).single
  obtain ⟨t, ht, hword⟩ := List.map_eq_singleton_iff.mp hwords
  have hnone : (ofSource (w ++ " ") file).program.statements = [] :=
    statements_of_storage (TokenStream.closed_ofText file _) ht (kind_of_word hword ▸ hv)
  have hempty : (ofSource "" file).program.statements = [] := rfl
  rw [Program.unplaced, Program.unplaced, Relabelling.program, Relabelling.program, hnone, hempty]

end Texts

/-! ### Both kinds of lists -/

namespace Parsed

/-- A list of subscripts is read as lists of one subscript each, and a list of declarators as lines
of one declarator each. -/
theorem desugared (file : String) :
    (∀ ⦃a es⦄, Operand file a → es ≠ [] → (∀ e ∈ es, ∃ x, StandsAlone file e x) →
      Agree (ofSource (a ++ "[" ++ ", ".intercalate es ++ "]") file)
        (ofSource (a ++ String.join (es.map fun e => "[" ++ e ++ "]")) file)) ∧
    ∀ ⦃w v ds⦄, Inline file w → words file w = [v] → isStorage v.1 = true →
      (∀ d ∈ ds, Declarator file d) →
      (ofSource (w ++ " " ++ ", ".intercalate ds) file).program.unplaced =
        (ofSource ("\n".intercalate (ds.map fun d => w ++ " " ++ d)) file).program.unplaced ∧
      (ds ≠ [] → (ofSource (w ++ " " ++ ", ".intercalate ds) file).diagnostics = [] ∧
        (ofSource ("\n".intercalate (ds.map fun d => w ++ " " ++ d)) file).diagnostics = []) := by
  refine ⟨fun a es ha hnil hes => agree_subscripts ha hnil hes,
    fun w v ds hw hwords hv hds => ?_⟩
  have hword := writes_storage hw hwords hv
  cases ds with
  | nil =>
      rw [List.map_nil, String.intercalate_nil, String.intercalate_nil, String.append_empty]
      exact ⟨unplaced_storage hword hv, fun hnil => absurd rfl hnil⟩
  | cons d ds =>
      obtain ⟨hclean, hclean', hsame⟩ := unplaced_declarations hword hv (List.cons_ne_nil d ds) hds
      exact ⟨hsame, fun _ => ⟨hclean, hclean'⟩⟩

theorem desugared_short :
    Agree (ofSource "a[1, b]" "t.prw") (ofSource "a[1][b]" "t.prw") ∧
      (ofSource "Local x, y := 1" "t.prw").program.unplaced =
        (ofSource "Local x\nLocal y := 1" "t.prw").program.unplaced := by
  obtain ⟨hlists, hlines⟩ := desugared "t.prw"
  have hname : (ofSource "a" "t.prw").program.expression?.any Expr.isPostfix = true := by
    decide +kernel
  obtain ⟨x, hx, hpostfix⟩ := (Option.any_eq_true _ _).mp hname
  have hoperand : Operand "t.prw" "a" :=
    .chain ⟨by decide +kernel, by decide +kernel, hx⟩ hpostfix
  have hsubscripts : ∀ e ∈ ["1", "b"], ∃ x, StandsAlone "t.prw" e x := by decide +kernel
  obtain ⟨y, hy⟩ := hsubscripts "1" (by simp)
  have hwords : words "t.prw" "y := 1" =
      (.identifier, "y") :: (.operator .assign, ":=") :: words "t.prw" "1" := by decide +kernel
  have hdeclarators : ∀ d ∈ ["x", "y := 1"], Declarator "t.prw" d := by
    rw [List.forall_mem_cons, List.forall_mem_singleton]
    exact ⟨.bare (n := "x") (by decide +kernel) (by decide +kernel),
      .initialized (by decide +kernel) hy hwords⟩
  have hlocal : words "t.prw" "Local" = [(.keyword .kwLocal, "Local")] := by decide +kernel
  have hagree := hlists hoperand (List.cons_ne_nil _ _) hsubscripts
  obtain ⟨hsame, -⟩ := hlines (by decide +kernel) hlocal rfl hdeclarators
  have hlist : "a" ++ "[" ++ ", ".intercalate ["1", "b"] ++ "]" = "a[1, b]" := by decide
  have hsingles : "a" ++ String.join (["1", "b"].map fun e => "[" ++ e ++ "]") = "a[1][b]" := by
    decide
  have hline : "Local" ++ " " ++ ", ".intercalate ["x", "y := 1"] = "Local x, y := 1" := by decide
  have hrows : "\n".intercalate (["x", "y := 1"].map fun d => "Local" ++ " " ++ d) =
      "Local x\nLocal y := 1" := by decide
  rw [hlist, hsingles] at hagree
  rw [hline, hrows] at hsame
  exact ⟨hagree, hsame⟩

/-- A string that is not closed takes the bracket behind it. -/
theorem unclosed_subscript : ¬∀ (file a : String) (es : List String), '\n' ∉ a.toList →
    (ofSource a file).diagnostics = [] →
    (∃ x, (ofSource a file).program.expression? = some x ∧ x.isPostfix = true) → es ≠ [] →
    (∀ e ∈ es, '\n' ∉ e.toList ∧ (ofSource e file).diagnostics = [] ∧
      ∃ x, (ofSource e file).program.expression? = some x) →
    Agree (ofSource (a ++ "[" ++ ", ".intercalate es ++ "]") file)
      (ofSource (a ++ String.join (es.map fun e => "[" ++ e ++ "]")) file) := by
  intro h
  have hname : (ofSource "a" "t.prw").program.expression?.any Expr.isPostfix = true := by
    decide +kernel
  have hstring : (ofSource "\"abc" "t.prw").program.expression?.isSome = true := by
    decide +kernel
  have hagree := h "t.prw" "a" ["\"abc"] (by decide) (by decide +kernel)
    ((Option.any_eq_true _ _).mp hname) (by simp) (List.forall_mem_singleton.mpr
      ⟨by decide, by decide +kernel, Option.isSome_iff_exists.mp hstring⟩)
  have hlist : "a" ++ "[" ++ ", ".intercalate ["\"abc"] ++ "]" = "a[\"abc]" := by decide
  rw [hlist] at hagree
  have hfaults : (ofSource "a[\"abc]" "t.prw").faults =
      [.expected "']'" ⟨.endOfInput, "", ⟨7, 7⟩, 1, 8, "t.prw"⟩] := by decide +kernel
  have hdeep : ¬(ofSource "a[\"abc]" "t.prw").TooDeep := by
    rintro ⟨t, ht⟩
    rw [hfaults, List.mem_singleton] at ht
    cases ht
  have hnone := (hagree.clean hdeep).1
  have hsome : (ofSource "a[\"abc]" "t.prw").diagnostics ≠ [] := by decide +kernel
  exact hsome hnone

end Parsed

end Clipper
