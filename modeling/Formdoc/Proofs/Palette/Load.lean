/-
What a loaded palette accounts for.

Every path that a tab lists is either that of a component of the tab or that of an issue
(`length_readable_add_length_unreadable`).  Every component of a tab is either found under its
id or repeats one that occurs in front of it: the places that the registry returns for a tab are
those of the components that repeat an id (`places_push`), so that the issues about them are about
these components and the paths they were read from (`issues_addTab`).  All issues are errors
(`severity_of_mem_ofTabs`).

Tab by tab this gives all of a palette's tabs and issues, and their numbers (`load_accounts`).
-/
import Formdoc.Proofs.Files.Tree
import Formdoc.Proofs.Palette.Registry
import Mathlib.Data.List.Sort

namespace Formdoc

namespace Registry

/-! ### One more tab -/

/-- What a tab adds to the size of the slots and what is returned for it are all its components. -/
theorem size_enter (tab place : Nat) (ms : List Manifest) (slots : OrderedMap Text Slot) :
    (enter tab place ms slots).1.size + (enter tab place ms slots).2.length =
      slots.size + ms.length := by
  induction ms generalizing place slots with
  | nil => rfl
  | cons m ms ih =>
    have hrest := ih (place + 1)
    by_cases hm : slots.contains m.id = true
    · rw [enter_cons_of_contains tab place ms hm, List.length_cons, ← Nat.add_assoc, hrest slots,
        Nat.add_assoc, List.length_cons]
    · have hsize : (slots.insert m.id ⟨tab, place⟩).size = slots.size + 1 := by
        have hkeys := OrderedMap.keys_insert slots m.id ⟨tab, place⟩
        rw [if_neg fun hk => hm (OrderedMap.contains_iff_mem_keys.2 hk)] at hkeys
        simpa [OrderedMap.keys, OrderedMap.size] using congrArg List.length hkeys
      rw [enter_cons_of_not_contains tab place ms hm, hrest, hsize, List.length_cons]
      omega

theorem size_push (r : Registry) (t : Tab) :
    (r.push t).1.size + (r.push t).2.length = r.size + t.components.length :=
  size_enter r.tabs.length 0 t.components r.slots

end Registry

namespace Palette

variable (t : FileTree) (root : Text)

/-! ### The manifests that a tab lists -/

theorem readManifest_eq_ok_iff {path : Text} {m : Manifest} :
    readManifest t root path = .ok m ↔
      ∃ content, t.read (Path.join (directory root) path) = .ok content ∧
        Manifest.read content = .ok m := by
  unfold readManifest
  split
  · rename_i h
    simp [h]
  · rename_i e _ h
    simp [h]
  · rename_i content h
    rw [h]
    cases hm : Manifest.read content with
    | error f => simp [hm]
    | ok m' => simp [hm]

theorem map_snd_readable (paths : List Text) :
    (readable t root paths).map Prod.snd =
      paths.filterMap fun path => (readManifest t root path).toOption := by
  rw [readable, List.map_filterMap]
  congr 1
  funext path
  rw [Option.map_map]
  exact congrFun Option.map_id _

theorem mem_readable {paths : List Text} {d : Text × Manifest} :
    d ∈ readable t root paths ↔ d.1 ∈ paths ∧ readManifest t root d.1 = .ok d.2 := by
  rw [readable, List.mem_filterMap]
  constructor
  · rintro ⟨path, hpath, hd⟩
    cases hm : readManifest t root path with
    | error message => simp [hm, Except.toOption] at hd
    | ok m =>
      rw [hm] at hd
      obtain rfl := Option.some.inj hd
      exact ⟨hpath, hm⟩
  · rintro ⟨hpath, hm⟩
    exact ⟨d.1, hpath, by rw [hm]; rfl⟩

/-- Each path that a tab lists is that of one of its components or that of an issue. -/
theorem length_readable_add_length_unreadable (paths : List Text) :
    (readable t root paths).length + (unreadable t root paths).length = paths.length := by
  induction paths with
  | nil => rfl
  | cons path paths ih =>
    rw [readable, unreadable, List.filterMap_cons, List.filterMap_cons, ← readable, ← unreadable]
    cases readManifest t root path with
    | ok m =>
      simp only [Except.toOption, Option.map_some, List.length_cons]
      omega
    | error message =>
      simp only [Except.toOption, Option.map_none, List.length_cons]
      omega

/-- The issues about manifests that cannot be loaded carry their paths, in the order in which they
are listed. -/
theorem map_file_unreadable (paths : List Text) :
    (unreadable t root paths).map Issue.file =
      paths.filter fun path => (readManifest t root path).toOption.isNone := by
  induction paths with
  | nil => rfl
  | cons path paths ih =>
    rw [unreadable, List.filterMap_cons, List.filter_cons, ← unreadable]
    cases readManifest t root path with
    | ok m => simpa [Except.toOption] using ih
    | error message => simpa [Except.toOption, Issue.error] using ih

/-- The issues about manifests that cannot be loaded are the errors that say why. -/
theorem mem_unreadable {paths : List Text} {i : Issue} :
    i ∈ unreadable t root paths ↔
      ∃ path ∈ paths, ∃ message, readManifest t root path = .error message ∧
        i = Issue.error message path := by
  rw [unreadable, List.mem_filterMap]
  refine exists_congr fun path => and_congr_right fun _ => ?_
  cases readManifest t root path with
  | ok m => simp
  | error message => simp [eq_comm]

/-! ### Components that repeat an id -/

/-- The components, each with the path it was read from, whose ids occur in front of them: among the
given ids, or in the list. -/
def repeats (ids : List Text) (es : List (Text × Manifest)) : List (Text × Manifest) :=
  (es.zipIdx.filter fun e =>
    decide (e.1.2.id ∈ ids ++ (es.take e.2).map fun d => d.2.id)).map Prod.fst

theorem mem_of_mem_repeats {ids : List Text} {es : List (Text × Manifest)} {d : Text × Manifest}
    (hd : d ∈ repeats ids es) : d ∈ es := by
  obtain ⟨e, he, rfl⟩ := List.mem_map.1 hd
  exact List.mem_of_getElem? (List.mk_mem_zipIdx_iff_getElem?.1 (List.mem_of_mem_filter he))

/-- The places that are returned for a tab are those of the components that repeat an id. -/
theorem places_push {r : Registry} (h : r.Indexed) (name : Text) (description : Option Text)
    (es : List (Text × Manifest)) :
    (r.push ⟨name, description, es.map Prod.snd⟩).2 =
      (es.zipIdx.filter fun e => decide (e.1.2.id ∈
        Registry.idsOf r.components ++ (es.take e.2).map fun d => d.2.id)).map Prod.snd := by
  -- Both lists increase, and they have the same members.
  refine (h.pairwise_push _).eq_of_mem_iff ?_ fun i => ?_
  · have hall : (es.zipIdx.map Prod.snd).Pairwise (· < ·) := by
      rw [List.zipIdx_map_snd]
      exact List.pairwise_lt_range'
    exact hall.sublist (List.filter_sublist.map _)
  · have henter : i ∈ (r.push ⟨name, description, es.map Prod.snd⟩).2 ↔ _ :=
      Registry.Indexes.mem_enter r.tabs.length 0 (es.map Prod.snd) h
    rw [henter]
    simp only [Nat.zero_add, exists_eq_left', Registry.RepeatsAt, List.getElem?_map,
      Option.map_eq_some_iff, ← List.map_take, List.map_map, List.mem_map, List.mem_filter,
      decide_eq_true_eq, Prod.exists, List.mk_mem_zipIdx_iff_getElem?]
    constructor
    · rintro ⟨m, ⟨path, _, hget, rfl⟩, hid⟩
      exact ⟨path, _, i, ⟨hget, hid⟩, rfl⟩
    · rintro ⟨path, m, _, ⟨hget, hid⟩, rfl⟩
      exact ⟨m, ⟨path, m, hget, rfl⟩, hid⟩

theorem filterMap_places_push {r : Registry} (h : r.Indexed) (name : Text)
    (description : Option Text) (es : List (Text × Manifest)) :
    ((r.push ⟨name, description, es.map Prod.snd⟩).2.filterMap fun i => es[i]?) =
      repeats (Registry.idsOf r.components) es := by
  rw [places_push h, repeats, List.filterMap_map, ← @List.filterMap_eq_map _ _ Prod.fst]
  refine List.filterMap_congr fun e he => ?_
  exact List.mk_mem_zipIdx_iff_getElem?.1 (List.mem_of_mem_filter he)

theorem length_places_push {r : Registry} (h : r.Indexed) (name : Text)
    (description : Option Text) (es : List (Text × Manifest)) :
    (r.push ⟨name, description, es.map Prod.snd⟩).2.length =
      (repeats (Registry.idsOf r.components) es).length := by
  rw [places_push h, repeats, List.length_map, List.length_map]

/-! ### Tab by tab -/

/-- The tab that is loaded for a listed one. -/
def tabOf (s : TabSource) : Tab :=
  ⟨s.name, s.description, s.paths.filterMap fun path => (readManifest t root path).toOption⟩

/-- The ids of the components of tabs, in order. -/
def idsIn (tabs : List TabSource) : List Text :=
  ((tabs.map (tabOf t root)).flatMap Tab.components).map Manifest.id

/-- The tabs, each with its components that repeat an id. -/
def withRepeats (tabs : List TabSource) : List (TabSource × List (Text × Manifest)) :=
  tabs.zipIdx.map fun e =>
    (e.1, repeats (idsIn t root (tabs.take e.2)) (readable t root e.1.paths))

theorem withRepeats_concat (tabs : List TabSource) (s : TabSource) :
    withRepeats t root (tabs ++ [s]) =
      withRepeats t root tabs ++ [(s, repeats (idsIn t root tabs) (readable t root s.paths))] := by
  rw [withRepeats, List.zipIdx_append, List.map_append, Nat.zero_add, List.zipIdx_singleton,
    List.map_singleton, List.take_left, withRepeats]
  congr 1
  -- The tabs in front of a tab are the same as without the last one.
  refine List.map_congr_left fun e he => ?_
  have hlt : e.2 < tabs.length := (List.getElem?_eq_some_iff.1
    (List.mk_mem_zipIdx_iff_getElem?.1 he)).1
  rw [List.take_append_of_le_length (Nat.le_of_lt hlt)]

/-- A component that repeats an id goes with the path of its own manifest. -/
theorem mem_of_mem_withRepeats {tabs : List TabSource} {e : TabSource × List (Text × Manifest)}
    (he : e ∈ withRepeats t root tabs) {d : Text × Manifest} (hd : d ∈ e.2) :
    d.1 ∈ e.1.paths ∧ readManifest t root d.1 = .ok d.2 := by
  obtain ⟨f, -, rfl⟩ := List.mem_map.1 he
  exact (mem_readable t root).1 (mem_of_mem_repeats hd)

theorem ofTabs_concat (tabs : List TabSource) (s : TabSource) :
    ofTabs t root (tabs ++ [s]) = addTab t root (ofTabs t root tabs) s := by
  rw [ofTabs, List.foldl_append]
  rfl

theorem tabOf_eq (s : TabSource) :
    tabOf t root s = ⟨s.name, s.description, (readable t root s.paths).map Prod.snd⟩ := by
  rw [tabOf, map_snd_readable]

theorem registry_addTab (p : Palette) (s : TabSource) :
    (addTab t root p s).registry = (p.registry.push (tabOf t root s)).1 := by
  rw [tabOf_eq]
  rfl

theorem tabs_ofTabs (tabs : List TabSource) :
    (ofTabs t root tabs).registry.tabs = tabs.map (tabOf t root) := by
  induction tabs using List.reverseRecOn with
  | nil => rfl
  | append_singleton tabs s ih =>
    rw [ofTabs_concat, registry_addTab, List.map_append, ← ih]
    rfl

theorem idsOf_ofTabs (tabs : List TabSource) :
    Registry.idsOf (ofTabs t root tabs).registry.components = idsIn t root tabs := by
  rw [Registry.idsOf_components, tabs_ofTabs, idsIn]

/-- One more tab brings the issues about its manifests that cannot be loaded, and then those about
its components that repeat an id. -/
theorem issues_addTab (tabs : List TabSource) (s : TabSource) :
    (addTab t root (ofTabs t root tabs) s).issues =
      (ofTabs t root tabs).issues ++ (unreadable t root s.paths ++
        (repeats (idsIn t root tabs) (readable t root s.paths)).map duplicate) := by
  rw [← idsOf_ofTabs, ← filterMap_places_push (indexed_ofTabs t root tabs) s.name s.description,
    ← List.append_assoc]
  rfl

theorem issues_ofTabs (tabs : List TabSource) :
    (ofTabs t root tabs).issues = (withRepeats t root tabs).flatMap fun e =>
      unreadable t root e.1.paths ++ e.2.map duplicate := by
  induction tabs using List.reverseRecOn with
  | nil => rfl
  | append_singleton tabs s ih =>
    rw [ofTabs_concat, issues_addTab, ih, withRepeats_concat, List.flatMap_append,
      List.flatMap_singleton]

/-- Every issue of a palette is an error. -/
theorem severity_of_mem_ofTabs {tabs : List TabSource} {i : Issue}
    (hi : i ∈ (ofTabs t root tabs).issues) : i.severity = .error := by
  rw [issues_ofTabs, List.mem_flatMap] at hi
  obtain ⟨e, -, hi⟩ := hi
  rcases List.mem_append.1 hi with hi | hi
  · obtain ⟨path, -, message, -, rfl⟩ := (mem_unreadable t root).1 hi
    rfl
  · obtain ⟨d, -, rfl⟩ := List.mem_map.1 hi
    rfl

/-- The listed paths are as many as the components and the issues about manifests together. -/
theorem length_paths (tabs : List TabSource) :
    (tabs.flatMap TabSource.paths).length =
      ((ofTabs t root tabs).registry.tabs.flatMap Tab.components).length +
        (tabs.flatMap fun s => unreadable t root s.paths).length := by
  rw [tabs_ofTabs]
  induction tabs with
  | nil => rfl
  | cons s tabs ih =>
    have hs := length_readable_add_length_unreadable t root s.paths
    simp only [List.map_cons, List.flatMap_cons, List.length_append, tabOf_eq, List.length_map]
    omega

/-- The components are as many as the ids under which one is found and the components that repeat an
id together. -/
theorem size_add_length_withRepeats (tabs : List TabSource) :
    (ofTabs t root tabs).registry.size + ((withRepeats t root tabs).flatMap Prod.snd).length =
      ((ofTabs t root tabs).registry.tabs.flatMap Tab.components).length := by
  induction tabs using List.reverseRecOn with
  | nil => rfl
  | append_singleton tabs s ih =>
    have hindexed := indexed_ofTabs t root tabs
    have hpush := Registry.size_push (ofTabs t root tabs).registry (tabOf t root s)
    rw [tabOf_eq, length_places_push hindexed, idsOf_ofTabs, ← tabOf_eq] at hpush
    rw [tabs_ofTabs] at ih ⊢
    rw [ofTabs_concat, registry_addTab, withRepeats_concat, List.map_append, List.flatMap_append,
      List.flatMap_append, List.length_append, List.length_append, List.map_singleton,
      List.flatMap_singleton, List.flatMap_singleton]
    dsimp only
    omega

/-! ### Loading -/

/-- A palette is loaded wherever its file can be read and states tabs. -/
theorem load_eq {content : Text} {tabs : List TabSource} (hread : t.read (file root) = .ok content)
    (htabs : TabSource.read? content = some tabs) : load t root = .ok (ofTabs t root tabs) := by
  have hexists : t.exists? (file root) = true := by
    obtain ⟨l, hl, hfile⟩ := FileTree.read_eq_ok_iff.1 hread
    rw [FileTree.exists?, FileTree.entryAt?, hl]
    simp only [hfile]
    rfl
  rw [load, if_pos hexists, hread]
  simp only [htabs]

/-- What a palette holds of the manifests that tabs list. -/
structure Accounts (tabs : List TabSource) (p : Palette) : Prop where
  /-- The tabs are those that are listed, each with the components whose manifests can be read. -/
  tabs_eq : p.registry.tabs = tabs.map fun s =>
    ⟨s.name, s.description, s.paths.filterMap fun path => (readManifest t root path).toOption⟩
  /-- A manifest can be read if its file can and states a component. -/
  readManifest_iff : ∀ path m, readManifest t root path = .ok m ↔
    ∃ content, t.read (Path.join (directory root) path) = .ok content ∧
      Manifest.read content = .ok m
  /-- The issues are, tab by tab, those about the manifests that cannot be read, and then those
  about the components whose ids occur in front of them. -/
  issues_eq : p.issues = (withRepeats t root tabs).flatMap fun e =>
    unreadable t root e.1.paths ++
      e.2.map fun d => ⟨"Duplicate component ID: ".toList ++ d.2.id, d.1, .error⟩
  /-- Every issue is an error. -/
  severity_eq : ∀ i ∈ p.issues, i.severity = .error
  /-- There is one issue for each manifest that cannot be read, under its path. -/
  files_eq : ∀ paths, (unreadable t root paths).map Issue.file =
    paths.filter fun path => (readManifest t root path).toOption.isNone
  /-- A component that repeats an id goes with the path of its own manifest. -/
  path_of_mem : ∀ e ∈ withRepeats t root tabs, ∀ d ∈ e.2,
    d.1 ∈ e.1.paths ∧ readManifest t root d.1 = .ok d.2
  /-- The paths are as many as the components and the issues about manifests. -/
  length_paths : (tabs.flatMap TabSource.paths).length =
    (p.registry.tabs.flatMap Tab.components).length +
      (tabs.flatMap fun s => unreadable t root s.paths).length
  /-- The components are as many as the ids under which one is found and the issues about ids. -/
  size_add : p.registry.size + ((withRepeats t root tabs).flatMap Prod.snd).length =
    (p.registry.tabs.flatMap Tab.components).length

/-- The palette of any tabs accounts for every manifest that they list, and is what is loaded where
the palette's file states these tabs. -/
theorem load_accounts (tabs : List TabSource) :
    Accounts t root tabs (ofTabs t root tabs) ∧
      ∀ content, t.read (file root) = .ok content → TabSource.read? content = some tabs →
        load t root = .ok (ofTabs t root tabs) where
  left :=
    { tabs_eq := tabs_ofTabs t root tabs
      readManifest_iff := fun _ _ => readManifest_eq_ok_iff t root
      issues_eq := issues_ofTabs t root tabs
      severity_eq := fun _ hi => severity_of_mem_ofTabs t root hi
      files_eq := map_file_unreadable t root
      path_of_mem := fun _ he _ hd => mem_of_mem_withRepeats t root he hd
      length_paths := length_paths t root tabs
      size_add := size_add_length_withRepeats t root tabs }
  right _ hread htabs := load_eq t root hread htabs

/-- Two tabs, with a manifest that is missing and a component in both. -/
def toolboxFile : Text :=
  "palette: [{tab: T, components: [a, gone, b]}, {tab: U, components: [a]}]".toList

/-- A manifest. Both files of the tree hold it, so that they share its id. -/
def toolboxManifest : Text :=
  "id: A\nlabel: A\ntemplate: T".toList

/-- The tree with the palette's file and two manifests. -/
def toolbox : FileTree :=
  ((FileTree.empty.place "components/registry.yml".toList (.file (.text toolboxFile))).place
    "components/a".toList (.file (.text toolboxManifest))).place
      "components/b".toList (.file (.text toolboxManifest))

/-- The tabs that the palette's file states. -/
def toolboxTabs : List TabSource :=
  [⟨"T".toList, none, ["a".toList, "gone".toList, "b".toList]⟩,
    ⟨"U".toList, none, ["a".toList]⟩]

theorem load_accounts_toolbox :
    toolbox.read (file []) = .ok toolboxFile ∧ TabSource.read? toolboxFile = some toolboxTabs ∧
      ∃ p, load toolbox [] = .ok p ∧ Accounts toolbox [] toolboxTabs p ∧
        p.issues = [⟨"Component manifest not found: gone".toList, "gone".toList, .error⟩,
          ⟨"Duplicate component ID: A".toList, "b".toList, .error⟩,
          ⟨"Duplicate component ID: A".toList, "a".toList, .error⟩] ∧
        p.registry.size = 1 := by
  have hread : toolbox.read (file []) = .ok toolboxFile := by decide +kernel
  have htabs : TabSource.read? toolboxFile = some toolboxTabs := by decide +kernel
  obtain ⟨haccounts, hload⟩ := load_accounts toolbox [] toolboxTabs
  exact ⟨hread, htabs, _, hload toolboxFile hread htabs, haccounts, by decide +kernel⟩

end Palette

end Formdoc
