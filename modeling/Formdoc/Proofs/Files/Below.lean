/-
The documents below a directory.

In a tree each entry has a name and lies in a directory (`WellFormed`).  Where
there are no links (`LinkFree`) a path leads to an entry step by step, so that
the path of a directory with the names behind it that lead to an entry leads to
that entry (`locate_spell`).

The documents below a directory are collected directory by directory.  Told from
the entries of the tree alone they are the files whose location goes through the
directory and whose name has the extension of documents (`documentsUnder`).  Both
are the same, each document once (`below_perm`): no chain of directories is longer
than the tree has entries (`length_le_size`), so that the bound of the nesting is
never reached.
-/
import Formdoc.Proofs.Files.Order
import Formdoc.Proofs.Files.Spelling
import Formdoc.Proofs.Files.Tree
import Formdoc.Proofs.Map
import Mathlib.Data.List.Perm.Subperm

namespace Formdoc

/-- The path with names behind it. -/
def Path.spell (path : Text) (names : List Text) : Text :=
  names.foldl Path.join path

namespace FileTree

/-! ### Well-formed trees -/

/-- Each entry has a name and lies in a directory. -/
structure WellFormed (t : FileTree) : Prop where
  placed : ∀ l ∈ t.entries.keys, ∃ dir n, l = dir ++ [n] ∧ Path.IsName n ∧
    t.get? dir = some .directory

/-- There are no links in the tree. -/
def LinkFree (t : FileTree) : Prop :=
  ∀ l target, t.get? l ≠ some (.link target)

variable {t : FileTree} {l dir : Location} {n : Text} {e : Entry}

theorem mem_keys_of_get? (hl : l ≠ []) (h : t.get? l = some e) : l ∈ t.entries.keys := by
  rw [get?, if_neg hl] at h
  exact List.mem_map.2 ⟨_, OrderedMap.mem_of_get? h, rfl⟩

theorem wellFormed_empty : empty.WellFormed :=
  ⟨fun _ h => absurd h List.not_mem_nil⟩

theorem linkFree_empty : empty.LinkFree := by
  intro l target h
  by_cases hl : l = []
  · rw [get?, if_pos hl] at h
    cases h
  · rw [get?, if_neg hl] at h
    cases h

/-- An entry may be put in a directory under a name that is free. -/
theorem WellFormed.set (h : t.WellFormed) (dir : Location) (n : Text)
    (hdir : t.get? dir = some .directory) (hn : Path.IsName n)
    (hfree : t.get? (dir ++ [n]) = none) (e : Entry) :
    (t.set (dir ++ [n]) e).WellFormed := by
  have hkept {d : Location} (hd : t.get? d = some .directory) :
      (t.set (dir ++ [n]) e).get? d = some .directory := by
    rw [get?_set (by simp), if_neg ?_, hd]
    rintro rfl
    rw [hfree] at hd
    cases hd
  refine ⟨fun l hl => ?_⟩
  have hmem : l ∈ t.entries.keys ∨ l = dir ++ [n] := by
    rw [FileTree.set, OrderedMap.keys_insert] at hl
    split at hl
    · exact .inl hl
    · simpa using hl
  rcases hmem with hmem | rfl
  · obtain ⟨d, m, rfl, hm, hd⟩ := h.placed l hmem
    exact ⟨d, m, rfl, hm, hkept hd⟩
  · exact ⟨dir, n, rfl, hn, hkept hdir⟩

theorem LinkFree.set (h : t.LinkFree) (he : ∀ target, e ≠ .link target) (hl : l ≠ []) :
    (t.set l e).LinkFree := by
  intro m target
  rw [get?_set hl]
  split
  · simpa using he target
  · exact h m target

theorem WellFormed.isName (h : t.WellFormed) (he : t.get? (dir ++ [n]) = some e) :
    Path.IsName n := by
  obtain ⟨d, m, heq, hm, -⟩ := h.placed _ (mem_keys_of_get? (by simp) he)
  rwa [(List.append_inj' heq rfl).2 |> List.singleton_inj.1]

/-- What an entry lies in is a directory, and so is what that lies in. -/
theorem WellFormed.directory (h : t.WellFormed) {rel : Location} (hrel : rel ≠ [])
    (he : t.get? (l ++ rel) = some e) : t.get? l = some .directory := by
  induction rel using List.reverseRecOn generalizing e with
  | nil => exact absurd rfl hrel
  | append_singleton rel m ih =>
    obtain ⟨d, k, heq, -, hd⟩ := h.placed _ (mem_keys_of_get? (by simp) he)
    rw [← List.append_assoc] at heq
    rw [← (List.append_inj' heq rfl).1] at hd
    by_cases hnil : rel = []
    · rwa [hnil, List.append_nil] at hd
    · exact ih hnil hd

theorem WellFormed.exists_get? (h : t.WellFormed) {rel : Location}
    (he : t.get? (l ++ rel) = some e) : ∃ e', t.get? l = some e' := by
  by_cases hrel : rel = []
  · rw [hrel, List.append_nil] at he
    exact ⟨e, he⟩
  · exact ⟨.directory, h.directory hrel he⟩

/-- No chain of directories is longer than the tree has entries. -/
theorem WellFormed.length_le_size (h : t.WellFormed) {rel : Location}
    (he : t.get? (l ++ rel) = some e) : rel.length ≤ t.entries.size := by
  let chain := (List.range rel.length).map fun i => l ++ rel.take (i + 1)
  have hnodup : chain.Nodup := by
    refine List.Nodup.map_on (fun i hi j hj hij => ?_) List.nodup_range
    have hlen := congrArg List.length (List.append_cancel_left hij)
    simp only [List.mem_range] at hi hj
    simp only [List.length_take] at hlen
    omega
  have hsub : chain ⊆ t.entries.keys := by
    intro k hk
    obtain ⟨i, hi, rfl⟩ := List.mem_map.1 hk
    have hi := List.mem_range.1 hi
    have hne : l ++ rel.take (i + 1) ≠ [] := by
      have : rel.take (i + 1) ≠ [] := by
        rw [← List.length_pos_iff, List.length_take]
        omega
      simp [this]
    rw [← List.take_append_drop (i + 1) rel, ← List.append_assoc] at he
    obtain ⟨e', he'⟩ := h.exists_get? he
    exact mem_keys_of_get? hne he'
  have hle := (List.subperm_of_subset hnodup hsub).length_le
  simpa [chain, OrderedMap.keys, OrderedMap.size] using hle

/-! ### Where paths lead -/

/-- Without links the steps of a path are taken one after another. -/
theorem LinkFree.walk_append (h : t.LinkFree)
    (f : Location → List Text → Except FileError Location) (l : Location) (s r : List Text) :
    t.walk f l (s ++ r) = (t.walk f l s).bind fun m => t.walk f m r := by
  induction s generalizing l with
  | nil => rfl
  | cons a s ih =>
    rw [List.cons_append, walk, walk]
    split
    · split_ifs with hdot hdots
      · exact ih l
      · exact ih l.dropLast
      · split
        · rfl
        · rename_i target htarget
          exact absurd htarget (h _ target)
        · exact ih _
    · rfl

/-- From a directory a name leads to its entry. -/
theorem LinkFree.walk_name (h : t.LinkFree) (f : Location → List Text → Except FileError Location)
    (hl : t.get? l = some .directory) (hn : Path.IsName n) (he : t.get? (l ++ [n]) = some e) :
    t.walk f l [n] = .ok (l ++ [n]) := by
  rw [walk, hl]
  simp only [if_neg hn.2.2.1, if_neg hn.2.2.2, he]
  cases e with
  | link target => exact absurd he (h _ target)
  | _ => rfl

theorem ne_nil_of_locate {path : Text} (h : t.locate path = .ok l) : path ≠ [] := by
  rintro rfl
  cases h

/-- The path of a directory with a name behind it leads to the directory's entry of that name. -/
theorem LinkFree.locate_join (h : t.LinkFree) {path : Text} (hpath : t.locate path = .ok l)
    (hl : t.get? l = some .directory) (hn : Path.IsName n) (he : t.get? (l ++ [n]) = some e) :
    t.locate (Path.join path n) = .ok (l ++ [n]) := by
  obtain ⟨front, hjoin, hfront⟩ := Path.exists_steps_join hn (ne_nil_of_locate hpath)
  have hlocate {q : Text} (hq : q ≠ []) :
      t.locate q = t.walk (t.follow 39) [] (steps q) := by
    rw [locate, if_neg hq]
    rfl
  rw [hlocate (ne_nil_of_locate hpath)] at hpath
  have hwalk : t.walk (t.follow 39) [] front = .ok l := by
    rcases hfront with hfront | hfront
    · rwa [hfront] at hpath
    · rw [hfront, h.walk_append] at hpath
      cases hm : t.walk (t.follow 39) [] front with
      | error err =>
        rw [hm] at hpath
        cases hpath
      | ok m =>
        rw [hm] at hpath
        -- A step `.` does not lead on.
        simp only [Except.bind, walk] at hpath
        split at hpath
        · exact hpath
        · cases hpath
  rw [hlocate (Path.join_ne_nil hn path), hjoin, h.walk_append, hwalk]
  exact h.walk_name _ hl hn he

/-- The path of a directory with the names behind it that lead to an entry leads to that entry. -/
theorem LinkFree.locate_spell (h : t.LinkFree) (hwf : t.WellFormed) {path : Text}
    {rel : Location} (hpath : t.locate path = .ok l) (he : t.get? (l ++ rel) = some e) :
    t.locate (Path.spell path rel) = .ok (l ++ rel) := by
  induction rel generalizing path l with
  | nil => rw [List.append_nil]; exact hpath
  | cons n rel ih =>
    have hl : t.get? l = some .directory := hwf.directory (List.cons_ne_nil n rel) he
    rw [← List.singleton_append, ← List.append_assoc] at he ⊢
    obtain ⟨e', he'⟩ := hwf.exists_get? he
    exact ih (h.locate_join hpath hl (hwf.isName he') he') he

/-! ### The documents below a directory -/

theorem eq_append_of_name {k : Location}
    (h : (match k.getLast? with
      | some m => if k.dropLast = l then some m else none
      | none => none) = some n) : k = l ++ [n] := by
  split at h
  · rename_i m hm
    split_ifs at h with hdrop
    obtain rfl := Option.some_inj.1 h
    rw [← hdrop, List.dropLast_append_getLast? m hm]
  · cases h

theorem mem_names_iff : n ∈ t.names l ↔ l ++ [n] ∈ t.entries.keys := by
  rw [names, List.mem_filterMap]
  constructor
  · rintro ⟨k, hk, hn⟩
    rwa [← eq_append_of_name hn]
  · exact fun h => ⟨l ++ [n], h, by simp⟩

theorem nodup_names (t : FileTree) (l : Location) : (t.names l).Nodup := by
  refine List.Nodup.filterMap (fun j k n hj hk => ?_) t.entries.nodup_keys
  rw [eq_append_of_name hj, eq_append_of_name hk]

/-- The names that lead to documents through one name in a directory. `further` gives those that
lead on from a directory of that name. -/
def through (t : FileTree) (further : Location → List Location) (l : Location) (n : Text) :
    List Location :=
  match t.get? (l ++ [n]) with
  | some .directory => (further (l ++ [n])).map (n :: ·)
  | some (.file _) => if isDocumentPath n then [[n]] else []
  | _ => []

theorem mem_through {further : Location → List Location} {rel : Location} :
    rel ∈ t.through further l n ↔ ∃ r, rel = n :: r ∧
      ((t.get? (l ++ [n]) = some .directory ∧ r ∈ further (l ++ [n])) ∨
        (∃ c, t.get? (l ++ [n]) = some (.file c)) ∧ isDocumentPath n = true ∧ r = []) := by
  unfold through
  cases t.get? (l ++ [n]) with
  | none => simp
  | some e =>
    cases e with
    | link target => simp
    | directory =>
      simp only [List.mem_map, true_and, reduceCtorEq, Option.some.injEq, exists_false, false_and,
        or_false]
      exact exists_congr fun r => by rw [eq_comm, and_comm]
    | file c => cases isDocumentPath n <;> simp

/-- The names that lead from a directory to the documents below it, in the order in which they are
found. -/
def descend (t : FileTree) : Nat → Location → List Location
  | 0, _ => []
  | depth + 1, l => (t.names l).flatMap (t.through (t.descend depth) l)

theorem below_eq (h : t.LinkFree) (hwf : t.WellFormed) (depth : Nat) (path : Text) (l : Location)
    (inside : List Location) :
    t.below depth path l inside = (t.descend depth l).map (Path.spell path) := by
  induction depth generalizing path l inside with
  | zero => rfl
  | succ depth ih =>
    rw [below, descend, List.map_flatMap]
    refine List.flatMap_congr fun n hn => ?_
    rw [through]
    simp only
    cases he : t.get? (l ++ [n]) with
    | none => rfl
    | some e =>
      have hdocument := isDocumentPath_join (hwf.isName he) path
      cases e with
      | link target => exact absurd he (h _ target)
      | directory =>
        simp only
        rw [ih, List.map_map]
        rfl
      | file c =>
        simp only [hdocument]
        split <;> rfl

/-- There is a file at the location, under a name with the extension of documents. -/
structure IsDocument (t : FileTree) (l : Location) : Prop where
  file : ∃ c, t.get? l = some (.file c)
  name : ∃ n, l.getLast? = some n ∧ isDocumentPath n = true

/-- What is found are the documents, down to a depth. -/
theorem mem_descend_iff (hwf : t.WellFormed) {depth : Nat} {rel : Location} :
    rel ∈ t.descend depth l ↔ rel.length ≤ depth ∧ rel ≠ [] ∧ t.IsDocument (l ++ rel) := by
  induction depth generalizing l rel with
  | zero =>
    refine iff_of_false List.not_mem_nil ?_
    rintro ⟨hlen, hne, -⟩
    exact hne (List.length_eq_zero_iff.1 (Nat.le_zero.1 hlen))
  | succ depth ih =>
    rw [descend, List.mem_flatMap]
    simp only [mem_through]
    constructor
    · rintro ⟨n, -, r, rfl, ⟨-, hr⟩ | ⟨hfile, hname, rfl⟩⟩
      · obtain ⟨hlen, -, hdocument⟩ := ih.1 hr
        rw [← List.append_cons] at hdocument
        exact ⟨Nat.succ_le_succ hlen, List.cons_ne_nil n r, hdocument⟩
      · exact ⟨Nat.le_add_left 1 depth, List.cons_ne_nil n [],
          ⟨hfile, n, List.getLast?_concat, hname⟩⟩
    · rintro ⟨hlen, hne, hdocument⟩
      obtain ⟨n, r, rfl⟩ := List.exists_cons_of_ne_nil hne
      rw [List.append_cons] at hdocument
      obtain ⟨c, hc⟩ := hdocument.file
      obtain ⟨e, he⟩ := hwf.exists_get? hc
      refine ⟨n, mem_names_iff.2 (mem_keys_of_get? (by simp) he), r, rfl, ?_⟩
      cases r with
      | nil =>
        rw [List.append_nil] at hdocument
        obtain ⟨m, hm, hname⟩ := hdocument.name
        obtain rfl : n = m := by simpa using hm
        exact .inr ⟨hdocument.file, hname, rfl⟩
      | cons k r =>
        have hne := List.cons_ne_nil k r
        exact .inl ⟨hwf.directory hne hc, ih.2 ⟨Nat.le_of_succ_le_succ hlen, hne, hdocument⟩⟩

theorem nodup_descend (t : FileTree) (depth : Nat) (l : Location) : (t.descend depth l).Nodup := by
  induction depth generalizing l with
  | zero => exact List.nodup_nil
  | succ depth ih =>
    rw [descend, List.nodup_flatMap]
    refine ⟨fun n _ => ?_, (t.nodup_names l).imp fun {m n} hne => ?_⟩
    · unfold through
      split
      · exact (ih _).map List.cons_injective
      · split
        · exact List.nodup_singleton _
        · exact List.nodup_nil
      · exact List.nodup_nil
    · refine List.disjoint_left.2 fun rel hm hn => ?_
      obtain ⟨r, rfl, -⟩ := mem_through.1 hm
      obtain ⟨s, hs, -⟩ := mem_through.1 hn
      exact hne (List.cons.inj hs).1

/-! ### Documents told by the entries of the tree -/

/-- There is a file at the location. -/
def holdsFile (t : FileTree) (l : Location) : Bool :=
  match t.get? l with
  | some (.file _) => true
  | _ => false

theorem holdsFile_iff : t.holdsFile l = true ↔ ∃ c, t.get? l = some (.file c) := by
  unfold holdsFile
  split
  · rename_i c hc
    exact iff_of_true rfl ⟨c, hc⟩
  · rename_i hno
    exact iff_of_false Bool.false_ne_true fun ⟨c, hc⟩ => hno c hc

/-- The locations of the files below a directory whose names have the extension of documents. -/
def documentsUnder (t : FileTree) (l : Location) : List Location :=
  t.entries.keys.filter fun k =>
    l.isPrefixOf k && t.holdsFile k && k.getLast?.any isDocumentPath

theorem mem_documentsUnder_iff {k : Location} :
    k ∈ t.documentsUnder l ↔ l <+: k ∧ t.IsDocument k := by
  rw [documentsUnder, List.mem_filter, Bool.and_eq_true, Bool.and_eq_true,
    List.isPrefixOf_iff_prefix, holdsFile_iff, Option.any_eq_true]
  constructor
  · rintro ⟨-, ⟨hunder, hfile⟩, hname⟩
    exact ⟨hunder, hfile, hname⟩
  · rintro ⟨hunder, ⟨c, hc⟩, n, hn, hname⟩
    have hne : k ≠ [] := by
      rintro rfl
      cases hn
    exact ⟨mem_keys_of_get? hne hc, ⟨hunder, c, hc⟩, n, hn, hname⟩

/-- What is found directory by directory are the documents below the directory, each once. -/
theorem descend_perm (hwf : t.WellFormed) (hl : t.get? l = some .directory) {depth : Nat}
    (hdepth : t.entries.size ≤ depth) :
    ((t.descend depth l).map (l ++ ·)).Perm (t.documentsUnder l) := by
  have hnodup : ((t.descend depth l).map (l ++ ·)).Nodup :=
    (t.nodup_descend depth l).map fun _ _ h => List.append_cancel_left h
  have hnodup' : (t.documentsUnder l).Nodup := t.entries.nodup_keys.filter _
  refine (List.perm_ext_iff_of_nodup hnodup hnodup').2 fun k => ?_
  simp only [List.mem_map, mem_descend_iff hwf, mem_documentsUnder_iff]
  constructor
  · rintro ⟨rel, ⟨-, -, hdocument⟩, rfl⟩
    exact ⟨List.prefix_append l rel, hdocument⟩
  · rintro ⟨⟨rel, rfl⟩, hdocument⟩
    obtain ⟨c, hc⟩ := hdocument.file
    refine ⟨rel, ⟨(hwf.length_le_size hc).trans hdepth, ?_, hdocument⟩, rfl⟩
    -- The directory itself is no file.
    rintro rfl
    rw [List.append_nil, hl] at hc
    cases hc

/-- The documents below a directory are collected once each, and spelled with the directory's path
in front. -/
theorem below_perm (h : t.LinkFree) (hwf : t.WellFormed) (hl : t.get? l = some .directory)
    (path : Text) :
    (t.below t.depthBound path l []).Perm
      ((t.documentsUnder l).map fun k => Path.spell path (k.drop l.length)) := by
  have hbound : t.entries.size ≤ t.depthBound :=
    (Nat.le_succ _).trans (Nat.le_mul_of_pos_right _ (Nat.succ_pos _))
  have hperm := (descend_perm hwf hl hbound).map fun k => Path.spell path (k.drop l.length)
  rw [List.map_map] at hperm
  rw [below_eq h hwf]
  refine (List.Perm.of_eq (List.map_congr_left fun rel _ => ?_)).trans hperm
  rw [Function.comp_apply, List.drop_left]

/-- The documents that a path stands for, told by the entries of the tree: how each is spelled, and
where it is. A file stands for itself, and a directory for the documents below it. -/
def documentsOf (t : FileTree) (path : Text) : List (Text × Location) :=
  match t.locate path with
  | .error _ => []
  | .ok l =>
    if t.holdsFile l then [(path, l)]
    else (t.documentsUnder l).map fun k => (Path.spell path (k.drop l.length), k)

theorem documentsAt_perm (h : t.LinkFree) (hwf : t.WellFormed) (path : Text) :
    (t.documentsAt path).Perm ((t.documentsOf path).map Prod.fst) := by
  unfold documentsAt documentsOf
  cases t.locate path with
  | error err => exact .refl _
  | ok l =>
    unfold holdsFile
    simp only
    cases hl : t.get? l with
    | none =>
      -- Nothing lies below a place where there is nothing.
      have hnone : t.documentsUnder l = [] := by
        refine List.eq_nil_iff_forall_not_mem.2 fun k hk => ?_
        obtain ⟨⟨rel, rfl⟩, ⟨c, hc⟩, -⟩ := mem_documentsUnder_iff.1 hk
        obtain ⟨e, he⟩ := hwf.exists_get? hc
        rw [hl] at he
        cases he
      simp [hnone]
    | some e =>
      cases e with
      | link target => exact absurd hl (h l target)
      | file c => exact .refl _
      | directory =>
        simp only [Bool.false_eq_true, if_false, List.map_map]
        exact below_perm h hwf hl path

/-- Each of the documents that a path stands for is a file, and its spelling leads to it. -/
theorem of_mem_documentsOf (h : t.LinkFree) (hwf : t.WellFormed) {path : Text}
    {d : Text × Location} (hd : d ∈ t.documentsOf path) :
    t.locate d.1 = .ok d.2 ∧ ∃ c, t.get? d.2 = some (.file c) := by
  unfold documentsOf at hd
  split at hd
  · cases hd
  · rename_i l hl
    split at hd
    · rename_i hfile
      obtain rfl := List.mem_singleton.1 hd
      exact ⟨hl, holdsFile_iff.1 hfile⟩
    · obtain ⟨k, hk, rfl⟩ := List.mem_map.1 hd
      obtain ⟨⟨rel, rfl⟩, ⟨c, hc⟩, -⟩ := mem_documentsUnder_iff.1 hk
      rw [List.drop_left]
      exact ⟨h.locate_spell hwf hl hc, c, hc⟩

/-- What is collected for some paths are the documents that they stand for, as often as they stand
for them. -/
theorem collect_perm (h : t.LinkFree) (hwf : t.WellFormed) (paths : List Text) :
    (t.collect paths).Perm ((paths.flatMap t.documentsOf).map Prod.fst) := by
  rw [List.map_flatMap]
  exact (Path.sort_perm _).trans
    (List.Perm.flatMap_left paths fun path _ => documentsAt_perm h hwf path)

end FileTree

end Formdoc
