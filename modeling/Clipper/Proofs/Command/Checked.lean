import Clipper.Command.Outcome
import Mathlib

/-!
Checking many files. Each path adds to the counts what stands there, whatever the paths before it
came to, so that the numbers are sums over all paths and do not depend on their order.
-/

namespace Clipper

namespace Outcome

section

variable (x : Externals) (entry : String → Entry)

/-- What is found in the text at a path; nothing where none can be read. -/
def found (path : String) : List Diagnostic :=
  match (entry path).read with
  | .error _ => []
  | .ok text => (Check.ofSource x text path).diagnostics

def errorsAt (path : String) : Nat := (found x entry path).countP Diagnostic.isError

def warningsAt (path : String) : Nat := (found x entry path).countP fun d => !d.isError

/-- Why the file at a path cannot be read, if it cannot. -/
def unreadableAt (path : String) : Option String :=
  match (entry path).read with
  | .error f => some (f.message path)
  | .ok _ => none

def reportsAt (path : String) : List Report :=
  match (entry path).read with
  | .error _ => []
  | .ok text => reportsOn (found x entry path) path text

/-- How many of some paths have no readable file, or one with an error. -/
def failures (paths : List String) : Nat :=
  paths.countP (fun p => (unreadableAt entry p).isSome) +
    paths.countP fun p => 0 < errorsAt x entry p

end

variable {x : Externals} {entry : String → Entry} {path : String}

theorem length_found (x : Externals) (entry : String → Entry) (path : String) :
    (found x entry path).length = errorsAt x entry path + warningsAt x entry path := by
  rw [errorsAt, warningsAt, List.length_eq_countP_add_countP Diagnostic.isError]
  congr 2
  funext d
  simp

theorem failures_cons (path : String) (paths : List String) :
    failures x entry (path :: paths) = failures x entry [path] + failures x entry paths := by
  simp only [failures, List.countP_cons, List.countP_nil]
  omega

/-- A path adds what stands there. -/
theorem Tally.add_eq (t : Tally) (path : String) : t.add x entry path =
    { errors := t.errors + errorsAt x entry path
      warnings := t.warnings + warningsAt x entry path
      failedFiles := t.failedFiles + failures x entry [path]
      unreadable := t.unreadable ++ (unreadableAt entry path).toList
      reports := t.reports ++ reportsAt x entry path } := by
  cases hread : (entry path).read with
  | error f =>
      simp [Tally.add, errorsAt, warningsAt, failures, unreadableAt, reportsAt, found, hread]
  | ok text =>
      have hfound : found x entry path = (Check.ofSource x text path).diagnostics := by
        rw [found, hread]
      have hfailures : failures x entry [path] = if 0 < errorsAt x entry path then 1 else 0 := by
        simp [failures, unreadableAt, hread, List.countP_singleton]
      have hunreadable : unreadableAt entry path = none := by rw [unreadableAt, hread]
      have hreports : reportsAt x entry path = reportsOn (found x entry path) path text := by
        rw [reportsAt, hread]
      simp only [Tally.add, hread]
      rw [hfailures, hunreadable, hreports, ← hfound, length_found, errorCount, ← errorsAt,
        Nat.add_sub_cancel_left, Option.toList_none, List.append_nil]
      congr 1
      split <;> rfl

/-- Paths add what stands at each of them. -/
theorem Tally.foldl_add (t : Tally) (paths : List String) : paths.foldl (Tally.add x entry) t =
    { errors := t.errors + (paths.map (errorsAt x entry)).sum
      warnings := t.warnings + (paths.map (warningsAt x entry)).sum
      failedFiles := t.failedFiles + failures x entry paths
      unreadable := t.unreadable ++ paths.filterMap (unreadableAt entry)
      reports := t.reports ++ paths.flatMap (reportsAt x entry) } := by
  induction paths generalizing t with
  | nil => simp [failures]
  | cons path paths ih =>
      rw [List.foldl_cons, ih, Tally.add_eq, failures_cons path paths]
      simp only [List.map_cons, List.sum_cons, Nat.add_assoc, List.flatMap_cons, List.append_assoc]
      congr 2
      rw [List.filterMap_cons]
      cases unreadableAt entry path <;> rfl

theorem failures_eq_zero {paths : List String} : failures x entry paths = 0 ↔
    ∀ p ∈ paths, ∃ text, (entry p).read = .ok text ∧ (Check.ofSource x text p).isOk = true := by
  rw [failures, Nat.add_eq_zero_iff, List.countP_eq_zero, List.countP_eq_zero, ← forall_and]
  refine forall_congr' fun p => ?_
  rw [← imp_and]
  refine imp_congr_right fun _ => ?_
  cases hread : (entry p).read with
  | error f => simp [unreadableAt, hread]
  | ok text => simp [unreadableAt, errorsAt, found, hread, Check.isOk]

/-- The verdict on some paths, in terms of what stands at each of them. -/
theorem check_eq (x : Externals) (entry : String → Entry) (paths : List String) :
    check x entry paths = Tally.outcome
      { errors := (paths.map (errorsAt x entry)).sum
        warnings := (paths.map (warningsAt x entry)).sum
        failedFiles := failures x entry paths
        unreadable := paths.filterMap (unreadableAt entry)
        reports := paths.flatMap (reportsAt x entry) } paths.length := by
  rw [check, Tally.foldl_add]
  simp only [Tally.empty, Nat.zero_add, List.nil_append]

section

variable (t : Tally) (files : Nat)

@[simp] theorem Tally.unreadable_outcome : (t.outcome files).unreadable = t.unreadable := rfl

@[simp] theorem Tally.reports_outcome : (t.outcome files).reports = t.reports := rfl

@[simp] theorem Tally.failure_outcome : (t.outcome files).failure =
    if 0 < t.failedFiles then some (failureText t.errors t.failedFiles files) else none := by
  unfold outcome
  split <;> rfl

@[simp] theorem Tally.output_outcome : (t.outcome files).output =
    if 0 < t.failedFiles then "" else checkedLine files t.warnings := by
  unfold outcome
  split <;> rfl

@[simp] theorem Tally.exitCode_outcome :
    (t.outcome files).exitCode = if 0 < t.failedFiles then 1 else 0 := by
  rw [exitCode, failure_outcome]
  split <;> rfl

end

/-- Of the numbers that make up the verdict none depends on the order of the paths. -/
theorem check_perm {paths paths' : List String} (h : paths.Perm paths') :
    (check x entry paths).exitCode = (check x entry paths').exitCode ∧
      (check x entry paths).failure = (check x entry paths').failure ∧
      (check x entry paths).output = (check x entry paths').output := by
  have herrors := (h.map (errorsAt x entry)).sum_nat
  have hwarnings := (h.map (warningsAt x entry)).sum_nat
  have hfailures : failures x entry paths = failures x entry paths' := by
    rw [failures, failures, h.countP_eq, h.countP_eq]
  rw [check_eq, check_eq, herrors, hwarnings, hfailures, h.length_eq]
  simp

/-- A check looks at every path, also behind one that could not be read or has errors. It succeeds
if there is a text without errors at each of them, and tells all warnings; else it tells all errors
and how many paths failed. The order of the paths does not matter for this. -/
theorem check_verdict (x : Externals) (entry : String → Entry) (paths : List String) :
    let o := check x entry paths
    o.unreadable = paths.filterMap (unreadableAt entry) ∧
      o.reports = paths.flatMap (reportsAt x entry) ∧
      (o.exitCode = 0 ↔
        ∀ p ∈ paths, ∃ text, (entry p).read = .ok text ∧ (Check.ofSource x text p).isOk = true) ∧
      (o.exitCode = 0 ∧ o.failure = none ∧
          o.output = checkedLine paths.length (paths.map (warningsAt x entry)).sum ∨
        o.exitCode = 1 ∧ o.failure = some (failureText (paths.map (errorsAt x entry)).sum
          (failures x entry paths) paths.length)) ∧
      ∀ paths', paths.Perm paths' → o.exitCode = (check x entry paths').exitCode ∧
        o.failure = (check x entry paths').failure ∧ o.output = (check x entry paths').output := by
  intro o
  have ho : o = _ := check_eq x entry paths
  refine ⟨by simp [ho], by simp [ho], ?_, ?_, fun _ h => check_perm h⟩
  · rw [← failures_eq_zero]
    simp [ho, Nat.pos_iff_ne_zero]
  · rcases Nat.eq_zero_or_pos (failures x entry paths) with hzero | hpos
    · exact Or.inl (by simp [ho, hzero])
    · exact Or.inr (by simp [ho, hpos])

end Outcome

end Clipper
