/-
Paths that are spelled name by name.

A directory's entry is spelled by a name behind the path of the directory.  Such
a path takes the steps of the directory's path and then one to the name, where a
step `.` that only asks for a directory is dropped (`Path.exists_steps_join`).
Its file name is the name, so that the name alone tells whether it is a document
(`isDocumentPath_join`).
-/
import Formdoc.Files.Documents
import Formdoc.Proofs.Text.Lines

namespace Formdoc

open Text

/-! ### Stretches between slashes -/

/-- The last stretch is empty only behind a separator. -/
theorem Text.getLast?_split_ne {sep : Char} {s : Text} (hne : s ≠ []) (h : s.getLast? ≠ some sep) :
    (split sep s).getLast? ≠ some [] := by
  induction s with
  | nil => exact absurd rfl hne
  | cons c s ih =>
    obtain ⟨l, ls, hl⟩ := List.exists_cons_of_ne_nil (split_ne_nil sep s)
    have hlast (hs : s ≠ []) : (l :: ls).getLast? ≠ some [] := by
      rw [← hl]
      refine ih hs ?_
      obtain ⟨d, t, rfl⟩ := List.exists_cons_of_ne_nil hs
      rwa [List.getLast?_cons_cons] at h
    rw [split]
    split
    · rename_i hc
      have hs : s ≠ [] := by
        rintro rfl
        exact h (by rw [hc]; rfl)
      rw [hl, List.getLast?_cons_cons]
      exact hlast hs
    · rw [hl, List.modifyHead_cons]
      cases ls with
      | nil => simp
      | cons k ks =>
        have hs : s ≠ [] := by
          rintro rfl
          cases hl
        have := hlast hs
        rwa [List.getLast?_cons_cons] at this ⊢

namespace Path

/-- A name of an entry in a directory. -/
def IsName (n : Text) : Prop :=
  n ≠ [] ∧ '/' ∉ n ∧ n ≠ ['.'] ∧ n ≠ ['.', '.']

instance (n : Text) : Decidable (IsName n) :=
  inferInstanceAs (Decidable (_ ∧ _))

variable {n : Text}

theorem innerPart?_of_isName (h : IsName n) : innerPart? n = some (.name n) := by
  obtain ⟨hne, -, hdot, hdots⟩ := h
  rw [innerPart?, if_neg (by simp [hne, hdot]), if_neg hdots]

theorem parts_of_isName (h : IsName n) : parts n = [.name n] := by
  rw [parts, split_of_not_mem h.2.1]
  simp only [List.filterMap_nil, List.append_nil]
  split
  · rename_i heq
    cases heq
  · exact absurd rfl h.2.2.1
  · rw [innerPart?_of_isName h]
    rfl

theorem join_nil (h : IsName n) : join [] n = n := by
  unfold join
  split
  · exact absurd List.mem_cons_self h.2.1
  · rfl

theorem join_concat (h : IsName n) (q : Text) (c : Char) :
    join (q ++ [c]) n = if c = '/' then (q ++ [c]) ++ n else (q ++ [c]) ++ '/' :: n := by
  unfold join
  split
  · exact absurd List.mem_cons_self h.2.1
  · simp only [List.getLast?_concat]

/-- A name is spelled behind a slash. -/
theorem exists_join_eq (hn : IsName n) {path : Text} (hpath : path ≠ []) :
    ∃ q, join path n = q ++ '/' :: n ∧
      (path = q ++ ['/'] ∨ (path = q ∧ path.getLast? ≠ some '/')) := by
  obtain ⟨q, c, rfl⟩ := (List.eq_nil_or_concat path).resolve_left hpath
  rw [List.concat_eq_append, join_concat hn]
  by_cases hc : c = '/'
  · subst hc
    exact ⟨q, by rw [if_pos rfl, List.append_assoc, List.singleton_append], .inl rfl⟩
  · exact ⟨q ++ [c], if_neg hc, .inr ⟨rfl, by simpa using hc⟩⟩

theorem join_ne_nil (hn : IsName n) (path : Text) : join path n ≠ [] := by
  by_cases hpath : path = []
  · rw [hpath, join_nil hn]
    exact hn.1
  · obtain ⟨q, hq, -⟩ := exists_join_eq hn hpath
    rw [hq]
    simp

/-- A name behind a path is one more step. -/
theorem exists_steps_join (hn : IsName n) {path : Text} (hpath : path ≠ []) :
    ∃ front, FileTree.steps (join path n) = front ++ [n] ∧
      (FileTree.steps path = front ∨ FileTree.steps path = front ++ [['.']]) := by
  obtain ⟨q, hq, hpath'⟩ := exists_join_eq hn hpath
  refine ⟨(split '/' q).filter (· ≠ []), ?_, ?_⟩
  · have hsplit : split '/' (q ++ '/' :: n) = split '/' q ++ [n] := by
      rw [split_append_cons, split_of_not_mem hn.2.1]
    rw [hq, FileTree.steps, hsplit, List.getLast?_concat, if_neg (by simpa using hn.1),
      List.filter_append]
    simp [hn.1]
  · rw [FileTree.steps]
    rcases hpath' with rfl | ⟨rfl, hlast⟩
    · have hsplit : split '/' (q ++ ['/']) = split '/' q ++ [[]] := split_append_cons '/' q []
      refine .inr ?_
      rw [hsplit, List.getLast?_concat, if_pos rfl, List.filter_append]
      simp
    · exact .inl (if_neg (getLast?_split_ne hpath hlast))

theorem fileName?_join (hn : IsName n) (path : Text) : fileName? (join path n) = some n := by
  have hlast : (parts (join path n)).getLast? = some (.name n) := by
    by_cases hpath : path = []
    · rw [hpath, join_nil hn, parts_of_isName hn]
      rfl
    · obtain ⟨q, hq, -⟩ := exists_join_eq hn hpath
      obtain ⟨first, rest, hsplit⟩ := List.exists_cons_of_ne_nil (split_ne_nil '/' q)
      have hsplit' : split '/' (join path n) = first :: (rest ++ [n]) := by
        rw [hq, split_append_cons, split_of_not_mem hn.2.1, hsplit, List.cons_append]
      rw [parts, hsplit']
      simp only
      rw [List.filterMap_append, List.filterMap_cons_some (innerPart?_of_isName hn),
        List.filterMap_nil, ← List.append_assoc, List.getLast?_concat]
  rw [fileName?, hlast]

end Path

theorem isDocumentPath_join {n : Text} (hn : Path.IsName n) (path : Text) :
    isDocumentPath (Path.join path n) = isDocumentPath n := by
  have hname : Path.fileName? n = some n := by
    rw [Path.fileName?, Path.parts_of_isName hn]
    rfl
  rw [isDocumentPath, isDocumentPath, Path.extension?, Path.extension?, Path.fileName?_join hn,
    hname]

end Formdoc
