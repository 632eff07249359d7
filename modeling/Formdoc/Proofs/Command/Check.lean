/-
What a check says about paths that it cannot read.

The check of some paths reads the documents that they stand for, and a document
that cannot be read is one error (`runCheck_of_unreadable`).  A path to a file
stands for that file (`documentsAt_of_isFile`), so that a file which is no text is
reported and the check fails.

A path that leads nowhere stands for nothing (`documentsAt_of_missing`) and is
passed over: the outcome is that of checking the other paths
(`run_check_unreadable`).  So a check of such a path alone succeeds
(`not_forall_run_check_reports`).
-/
import Formdoc.Command.Basic
import Formdoc.Proofs.Files.Order

namespace Formdoc

/-! ### The documents that paths stand for -/

namespace FileTree

variable {t : FileTree} {path : Text}

theorem documentsAt_of_isFile (h : t.isFile path = true) : t.documentsAt path = [path] := by
  unfold isFile entryAt? at h
  unfold documentsAt
  cases hl : t.locate path with
  | error e => simp [hl] at h
  | ok l =>
    rw [hl] at h
    simp only at h ⊢
    split at h
    · rename_i c hc
      rw [hc]
    · cases h

theorem documentsAt_of_missing (h : t.exists? path = false) : t.documentsAt path = [] := by
  unfold exists? entryAt? at h
  unfold documentsAt
  cases hl : t.locate path with
  | error e => rfl
  | ok l =>
    rw [hl] at h
    simp only [Option.isSome_eq_false_iff, Option.isNone_iff_eq_none] at h ⊢
    rw [h]

/-- A path that leads nowhere adds nothing to what other paths stand for. -/
theorem collect_filter_ne (h : t.exists? path = false) (paths : List Text) :
    t.collect (paths.filter (· ≠ path)) = t.collect paths := by
  have hdocuments : (paths.filter (· ≠ path)).flatMap t.documentsAt =
      paths.flatMap t.documentsAt := by
    induction paths with
    | nil => rfl
    | cons p ps ih =>
      by_cases hp : p = path
      · rw [List.filter_cons_of_neg (by simp [hp]), ih, List.flatMap_cons, hp,
          documentsAt_of_missing h, List.nil_append]
      · rw [List.filter_cons_of_pos (by simp [hp]), List.flatMap_cons, List.flatMap_cons, ih]
  rw [collect, collect, hdocuments]

theorem mem_collect_of_isFile {paths : List Text} (hp : path ∈ paths) (h : t.isFile path = true) :
    path ∈ t.collect paths := by
  refine (Path.sort_perm _).mem_iff.2 (List.mem_flatMap.2 ⟨path, hp, ?_⟩)
  rw [documentsAt_of_isFile h]
  exact List.mem_singleton_self path

end FileTree

/-! ### Reports -/

theorem FileReport.le_total {count : FileReport → Nat} {r : FileReport} {rs : List FileReport}
    (h : r ∈ rs) : count r ≤ total count rs := by
  induction rs with
  | nil => cases h
  | cons q rs ih =>
    rw [total]
    rcases List.mem_cons.1 h with rfl | h
    · exact Nat.le_add_right _ _
    · exact Nat.le_add_left_of_le (ih h)

/-- An error about the file at a path has been logged. -/
def Outcome.Reports (o : Outcome) (path : Text) : Prop :=
  ∃ d : Diagnostic, d.isError = true ∧ .log .error (path ++ ": ".toList ++ d.display) ∈ o.events

namespace Command

variable {t : FileTree} {paths : List Text} {path : Text}

/-- What a check logs are the events of its reports, between a first and a last one. -/
theorem events_runCheck (t : FileTree) (paths : List Text) : ∃ first last,
    (runCheck t paths).events =
      first :: (t.checkAll (t.collect paths)).flatMap FileReport.events ++ [last] := by
  unfold runCheck
  simp only
  split <;> exact ⟨_, _, rfl⟩

theorem failure_runCheck_ne_none {r : FileReport} (hr : r ∈ t.checkAll (t.collect paths))
    (h : r.errorCount ≠ 0) : (runCheck t paths).failure ≠ none := by
  have htotal : r.errorCount ≤
      FileReport.total FileReport.errorCount (t.checkAll (t.collect paths)) :=
    FileReport.le_total hr
  unfold runCheck
  simp only
  rw [if_neg (by omega)]
  simp [Outcome.fail]

/-- A document that cannot be read is reported, and the check fails. -/
theorem runCheck_of_unreadable {e : FileError} (hp : path ∈ t.collect paths)
    (he : t.read path = .error e) :
    (runCheck t paths).Reports path ∧ (runCheck t paths).failure ≠ none := by
  let d := Diagnostic.error (unreadableMessage path ++ ": ".toList ++ e.message)
  have hcheck : t.check path = ⟨path, [d]⟩ := by
    rw [FileTree.check, he]
  have hmem : (⟨path, [d]⟩ : FileReport) ∈ t.checkAll (t.collect paths) :=
    List.mem_map.2 ⟨path, hp, hcheck⟩
  refine ⟨⟨d, rfl, ?_⟩, failure_runCheck_ne_none hmem Nat.one_ne_zero⟩
  obtain ⟨first, last, hevents⟩ := events_runCheck t paths
  rw [hevents]
  refine List.mem_append_left _ (List.mem_cons_of_mem _ (List.mem_flatMap.2 ⟨_, hmem, ?_⟩))
  exact List.mem_singleton_self _

/-- A check reports each file that it is given and cannot read as a text, and then fails. A path
that leads nowhere makes no difference: the outcome is that of checking the other paths. -/
theorem run_check_unreadable (s : Settings) (t : FileTree) {paths : List Text}
    (hne : paths ≠ []) :
    (∀ p ∈ paths, t.isFile p = true → (∀ source, t.read p ≠ .ok source) →
        (run s t (.check paths)).Reports p ∧ (run s t (.check paths)).failure ≠ none) ∧
      ∀ p ∈ paths, t.exists? p = false →
        run s t (.check paths) = runCheck t (paths.filter (· ≠ p)) := by
  have hrun : run s t (.check paths) = runCheck t paths := by
    rw [run, if_neg (by simpa using hne)]
  rw [hrun]
  refine ⟨fun p hp hfile hread => ?_, fun p _ hmissing => ?_⟩
  · cases he : t.read p with
    | ok source => exact absurd he (hread source)
    | error e => exact runCheck_of_unreadable (FileTree.mem_collect_of_isFile hp hfile) he
  · unfold runCheck
    rw [FileTree.collect_filter_ne hmissing]

/-- A file that is no text. -/
def blob : FileTree :=
  FileTree.empty.set ["blob.xtform".toList] (.file (.bytes [255, 254]))

theorem run_check_blob :
    ["blob.xtform".toList, "gone.xtform".toList] ≠ [] ∧
      (run .default blob (.check ["blob.xtform".toList, "gone.xtform".toList])).Reports
        "blob.xtform".toList ∧
      (run .default blob (.check ["blob.xtform".toList, "gone.xtform".toList])).failure ≠ none ∧
      run .default blob (.check ["blob.xtform".toList, "gone.xtform".toList]) =
        runCheck blob (["blob.xtform".toList, "gone.xtform".toList].filter
          (· ≠ "gone.xtform".toList)) := by
  have hne : ["blob.xtform".toList, "gone.xtform".toList] ≠ [] := by simp
  obtain ⟨hfiles, hmissing⟩ := run_check_unreadable .default blob hne
  have hread : blob.read "blob.xtform".toList = .error .notText := by decide +kernel
  obtain ⟨hreports, hfails⟩ := hfiles "blob.xtform".toList (by simp) (by decide +kernel)
    fun source h => by
      rw [hread] at h
      cases h
  exact ⟨hne, hreports, hfails, hmissing "gone.xtform".toList (by simp) (by decide +kernel)⟩

/-- A check may succeed although a path that it is given leads nowhere. -/
theorem not_forall_run_check_reports : ¬ ∀ (s : Settings) (t : FileTree) (paths : List Text),
    paths ≠ [] → ∀ p ∈ paths,
      (t.exists? p = false ∨ (t.isFile p = true ∧ ∀ source, t.read p ≠ .ok source)) →
        (run s t (.check paths)).Reports p ∧ (run s t (.check paths)).failure ≠ none := by
  intro h
  have hmissing : FileTree.empty.exists? "gone.xtform".toList = false := by decide +kernel
  have hcollect : FileTree.empty.collect ["gone.xtform".toList] = [] := by
    rw [FileTree.collect, List.flatMap_singleton, FileTree.documentsAt_of_missing hmissing]
    exact (Path.sort_perm []).eq_nil
  have hsucceeds :
      (run .default .empty (.check ["gone.xtform".toList])).failure = none := by
    show (runCheck .empty ["gone.xtform".toList]).failure = none
    unfold runCheck
    rw [hcollect]
    rfl
  exact (h .default .empty ["gone.xtform".toList] (by simp) "gone.xtform".toList (by simp)
    (.inl hmissing)).2 hsucceeds

end Command

end Formdoc
