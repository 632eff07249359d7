/-
The verdict of a check.

The documents that a check collects are in the order of their paths, and they are
those that the given paths stand for: a file for itself, a directory for the
documents below it, each as often as it is stood for (`FileTree.collect_perm`).

What is said of a document is told by its path and its content
(`FileTree.check_eq_ofContent`).  A content that is no text is one error, and a
text has as many errors as its body has blank tags
(`FileReport.errorCount_ofContent`).  So a check fails exactly if the content of a
collected document is no text or has a blank tag, and the number of errors that it
tells is the sum over all of them (`runCheck_verdict`).
-/
import Formdoc.Command.Basic
import Formdoc.Proofs.Document.Diagnostics
import Formdoc.Proofs.Files.Below

namespace Formdoc

namespace Content

/-- The content is no text. -/
def isUnreadable : Content → Bool
  | text _ => false
  | bytes _ => true

/-- The blank tags in the body of a document with the content. -/
def blankTags : Content → List (Located Token)
  | text s => Body.blankTags (Regions.read s).body
  | bytes _ => []

/-- The number of contents that are no text, and of blank tags in the others. -/
def errorsIn (cs : List Content) : Nat :=
  cs.countP isUnreadable + (cs.map fun c => c.blankTags.length).sum

theorem errorsIn_cons (c : Content) (cs : List Content) :
    errorsIn (c :: cs) =
      (if c.isUnreadable then 1 else 0) + c.blankTags.length + errorsIn cs := by
  rw [errorsIn, List.countP_cons, List.map_cons, List.sum_cons, errorsIn]
  omega

theorem errorsIn_ne_zero_iff {cs : List Content} :
    errorsIn cs ≠ 0 ↔ ∃ c ∈ cs, c.isUnreadable = true ∨ c.blankTags ≠ [] := by
  induction cs with
  | nil => simp [errorsIn]
  | cons c cs ih =>
    have hc : (if c.isUnreadable then 1 else 0) + c.blankTags.length ≠ 0 ↔
        c.isUnreadable = true ∨ c.blankTags ≠ [] := by
      cases c.isUnreadable <;> simp
    rw [errorsIn_cons, List.exists_mem_cons_iff, ← ih, ← hc]
    omega

end Content

/-! ### Reports -/

namespace FileReport

/-- What is to be said about a file with a content. -/
def ofContent (path : Text) : Content → FileReport
  | .text s => ⟨path, (Document.read s).diagnostics⟩
  | .bytes _ =>
    ⟨path, [.error (unreadableMessage path ++ ": ".toList ++ FileError.notText.message)]⟩

theorem errorCount_ofContent (path : Text) (c : Content) :
    (ofContent path c).errorCount = (if c.isUnreadable then 1 else 0) + c.blankTags.length := by
  cases c with
  | bytes b => rfl
  | text s =>
    have herrors := Document.errors_read s
    rw [Body.errors_read_eq] at herrors
    show (Document.read s).diagnostics.countP Diagnostic.isError = 0 + _
    rw [List.countP_eq_length_filter, ← Reading.errors, herrors, List.length_map, Nat.zero_add]
    rfl

theorem total_errors (paths : List Text) (cs : List Content) (h : paths.length = cs.length) :
    total errorCount (List.zipWith ofContent paths cs) = Content.errorsIn cs := by
  induction cs generalizing paths with
  | nil =>
    rw [List.zipWith_nil_right]
    rfl
  | cons c cs ih =>
    obtain ⟨p, ps, rfl⟩ := List.exists_cons_of_length_eq_add_one h
    rw [List.zipWith_cons_cons, total, ih ps (Nat.succ.inj h), errorCount_ofContent,
      Content.errorsIn_cons]

end FileReport

namespace FileTree

variable {t : FileTree}

theorem entryAt?_eq_some_iff {path : Text} {e : Entry} :
    t.entryAt? path = some e ↔ ∃ l, t.locate path = .ok l ∧ t.get? l = some e := by
  unfold entryAt?
  cases t.locate path <;> simp

/-- What is said of a file depends on its path and its content alone. -/
theorem check_eq_ofContent {path : Text} {c : Content}
    (h : t.entryAt? path = some (.file c)) : t.check path = .ofContent path c := by
  obtain ⟨l, hl, hc⟩ := entryAt?_eq_some_iff.1 h
  cases c with
  | text s => rw [check, read_eq_ok_iff.2 ⟨l, hl, hc⟩, FileReport.ofContent]
  | bytes b =>
    have hread : t.read path = .error .notText := by
      unfold read
      rw [hl]
      simp only [bind, Except.bind, hc]
    rw [check, hread, FileReport.ofContent]

/-- Files have contents. -/
theorem exists_contents {paths : List Text}
    (h : ∀ p ∈ paths, ∃ c, t.entryAt? p = some (.file c)) :
    ∃ cs, List.Forall₂ (fun p c => t.entryAt? p = some (.file c)) paths cs := by
  induction paths with
  | nil => exact ⟨[], .nil⟩
  | cons p ps ih =>
    obtain ⟨hp, hps⟩ := List.forall_mem_cons.1 h
    obtain ⟨c, hc⟩ := hp
    obtain ⟨cs, hcs⟩ := ih hps
    exact ⟨c :: cs, .cons hc hcs⟩

theorem checkAll_eq_zipWith {paths : List Text} {cs : List Content}
    (h : List.Forall₂ (fun p c => t.entryAt? p = some (.file c)) paths cs) :
    t.checkAll paths = List.zipWith FileReport.ofContent paths cs := by
  unfold checkAll
  induction h with
  | nil => rfl
  | cons hc _ ih => rw [List.map_cons, List.zipWith_cons_cons, check_eq_ofContent hc, ih]

end FileTree

/-! ### The check command -/

namespace Command

open FileTree Content

/-- What a check says of some contents, which are those of the documents that it collects. -/
structure Verdict (t : FileTree) (paths : List Text) (cs : List Content) : Prop where
  contents : List.Forall₂ (fun p c => t.entryAt? p = some (.file c)) (t.collect paths) cs
  reports : t.checkAll (t.collect paths) = List.zipWith FileReport.ofContent (t.collect paths) cs
  failure_ne_none_iff : (runCheck t paths).failure ≠ none ↔
    ∃ c ∈ cs, c.isUnreadable = true ∨ c.blankTags ≠ []
  failure_eq : (runCheck t paths).failure =
    if errorsIn cs = 0 then none else some (.errorsFound (errorsIn cs))
  told : ∃ warnings, (runCheck t paths).events.getLast? = some (.log .info
    ("Checked ".toList ++ digitsOf (t.collect paths).length ++ " documents: ".toList ++
      digitsOf (errorsIn cs) ++ " errors, ".toList ++ digitsOf warnings ++ " warnings".toList))

theorem verdict_of_contents {t : FileTree} {paths : List Text} {cs : List Content}
    (h : List.Forall₂ (fun p c => t.entryAt? p = some (.file c)) (t.collect paths) cs) :
    Verdict t paths cs := by
  have hreports := checkAll_eq_zipWith h
  have hcount : (t.checkAll (t.collect paths)).length = (t.collect paths).length :=
    List.length_map _
  have htotal : FileReport.total FileReport.errorCount (t.checkAll (t.collect paths)) =
      errorsIn cs := by
    rw [hreports, FileReport.total_errors _ _ h.length_eq]
  have hfailure : (runCheck t paths).failure =
      if errorsIn cs = 0 then none else some (.errorsFound (errorsIn cs)) := by
    unfold runCheck
    simp only [htotal]
    split <;> rfl
  refine ⟨h, hreports, ?_, hfailure, ?_⟩
  · rw [hfailure, ← errorsIn_ne_zero_iff]
    split_ifs with hzero <;> simp [hzero]
  · refine ⟨FileReport.total FileReport.warningCount (t.checkAll (t.collect paths)), ?_⟩
    unfold runCheck
    simp only [htotal, hcount]
    split <;> exact List.getLast?_concat

/-- A check collects the documents that its paths stand for, each as often as it is stood for, and
in the order of their paths. Its verdict is told by the contents of these documents alone: it fails
exactly if one of them is no text or has a blank tag in its body, and the errors that it counts are
the documents that are no text and the blank tags in the others. -/
theorem runCheck_verdict {t : FileTree} (hwf : t.WellFormed) (hlinks : t.LinkFree)
    (paths : List Text) :
    (t.collect paths).Pairwise (fun p q => Path.le p q = true) ∧
      (t.collect paths).Perm ((paths.flatMap t.documentsOf).map Prod.fst) ∧
      (∀ d ∈ paths.flatMap t.documentsOf, t.locate d.1 = .ok d.2) ∧
      ∃ cs, Verdict t paths cs := by
  have hperm := collect_perm hlinks hwf paths
  have hmem {d : Text × Location} (hd : d ∈ paths.flatMap t.documentsOf) :
      t.locate d.1 = .ok d.2 ∧ ∃ c, t.get? d.2 = some (.file c) := by
    obtain ⟨p, -, hd⟩ := List.mem_flatMap.1 hd
    exact of_mem_documentsOf hlinks hwf hd
  refine ⟨Path.pairwise_sort _, hperm, fun d hd => (hmem hd).1, ?_⟩
  have hfiles : ∀ p ∈ t.collect paths, ∃ c, t.entryAt? p = some (.file c) := by
    intro p hp
    obtain ⟨d, hd, rfl⟩ := List.mem_map.1 (hperm.mem_iff.1 hp)
    obtain ⟨hlocate, c, hc⟩ := hmem hd
    exact ⟨c, entryAt?_eq_some_iff.2 ⟨d.2, hlocate, hc⟩⟩
  obtain ⟨cs, hcs⟩ := exists_contents hfiles
  exact ⟨cs, verdict_of_contents hcs⟩

/-- A directory with two documents, the second further below and no text, and a file of notes. -/
def desk : FileTree :=
  ((((FileTree.empty.set ["forms".toList] .directory).set
    ["forms".toList, "a.xtform".toList] (.file (.text "[% /%] and [% Box /%]".toList))).set
    ["forms".toList, "old".toList] .directory).set
    ["forms".toList, "old".toList, "b.xtform".toList] (.file (.bytes [255]))).set
    ["notes.md".toList] (.file (.text "Notes".toList))

theorem wellFormed_desk : desk.WellFormed :=
  ((((wellFormed_empty.set [] "forms".toList rfl (by decide) rfl _).set
    ["forms".toList] "a.xtform".toList rfl (by decide) rfl _).set
    ["forms".toList] "old".toList rfl (by decide) rfl _).set
    ["forms".toList, "old".toList] "b.xtform".toList rfl (by decide) rfl _).set
    [] "notes.md".toList rfl (by decide) rfl _

theorem linkFree_desk : desk.LinkFree :=
  ((((linkFree_empty.set (by simp) (by simp)).set (by simp) (by simp)).set (by simp) (by simp)).set
    (by simp) (by simp)).set (by simp) (by simp)

theorem runCheck_verdict_desk :
    (desk.WellFormed ∧ desk.LinkFree) ∧
      desk.collect ["notes.md".toList, "forms/".toList, "notes.md".toList] =
        ["forms/a.xtform".toList, "forms/old/b.xtform".toList, "notes.md".toList,
          "notes.md".toList] ∧
      (runCheck desk ["notes.md".toList, "forms/".toList, "notes.md".toList]).failure =
        some (.errorsFound 2) := by
  obtain ⟨hsorted, hperm, -, cs, hverdict⟩ := runCheck_verdict wellFormed_desk linkFree_desk
    ["notes.md".toList, "forms/".toList, "notes.md".toList]
  have hcollect : desk.collect ["notes.md".toList, "forms/".toList, "notes.md".toList] =
      ["forms/a.xtform".toList, "forms/old/b.xtform".toList, "notes.md".toList,
        "notes.md".toList] := by
    have hlist : ((["notes.md".toList, "forms/".toList, "notes.md".toList].flatMap
        desk.documentsOf).map Prod.fst).Perm ["forms/a.xtform".toList,
          "forms/old/b.xtform".toList, "notes.md".toList, "notes.md".toList] := by
      decide +kernel
    have hperm := hperm.trans hlist
    have hle : ∀ p ∈ ["forms/a.xtform".toList, "forms/old/b.xtform".toList, "notes.md".toList],
        ∀ q ∈ ["forms/a.xtform".toList, "forms/old/b.xtform".toList, "notes.md".toList],
        Path.le p q = true → Path.le q p = true → p = q := by
      decide +kernel
    refine hperm.eq_of_pairwise (fun p q hp hq => hle p ?_ q ?_) hsorted (by decide +kernel)
    · simpa using hperm.mem_iff.1 hp
    · simpa using hq
  have hcontents := hverdict.contents
  rw [hcollect] at hcontents
  simp only [List.forall₂_cons_left_iff, List.forall₂_nil_left_iff] at hcontents
  obtain ⟨a, _, ha, ⟨b, _, hb, ⟨c, _, hc, ⟨d, _, hd, rfl, rfl⟩, rfl⟩, rfl⟩, rfl⟩ := hcontents
  have haText : desk.entryAt? "forms/a.xtform".toList =
      some (.file (.text "[% /%] and [% Box /%]".toList)) := by decide +kernel
  have hbBytes : desk.entryAt? "forms/old/b.xtform".toList = some (.file (.bytes [255])) := by
    decide +kernel
  have hcText : desk.entryAt? "notes.md".toList = some (.file (.text "Notes".toList)) := by
    decide +kernel
  rw [haText] at ha
  rw [hbBytes] at hb
  rw [hcText] at hc hd
  cases ha
  cases hb
  cases hc
  cases hd
  refine ⟨⟨wellFormed_desk, linkFree_desk⟩, hcollect, ?_⟩
  rw [hverdict.failure_eq]
  have herrors : errorsIn [.text "[% /%] and [% Box /%]".toList, .bytes [255],
      .text "Notes".toList, .text "Notes".toList] = 2 := by decide +kernel
  rw [herrors]
  rfl

end Command

end Formdoc
