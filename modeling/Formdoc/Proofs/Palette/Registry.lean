/-
What is found in a registry.

Slots index components if they have under each id the slot of the first component with it, and
the ids in the order of these components (`Indexes`).  One more component keeps this, whether
its id is taken (`Indexes.concat_of_contains`) or new (`Indexes.concat_of_not_contains`), and so
does a tab of components (`Indexes.enter`).  So the slots of every registry that is built tab by
tab index its components (`indexed_ofTabs`), those of a loaded palette among them
(`Palette.indexed_of_load`).

What is found in such a registry does not depend on the slots: under an id, the first component
with it (`Indexed.get?_eq`); the ids, each once, in the order in which they occur first
(`Indexed.ids_eq`); and in a tab to be added, the components whose ids occur in front of them
(`Indexed.mem_push`).  `ofTabs_spec` has all of it.
-/
import Formdoc.Palette.Load
import Formdoc.Proofs.Map
import Mathlib.Data.List.Induction
import Mathlib.Data.List.Sigma

namespace Formdoc.Registry

variable {slots : OrderedMap Text Slot} {es : List (Slot × Manifest)}

/-! ### Slots that index components -/

/-- The ids of components, in order. -/
def idsOf (es : List (Slot × Manifest)) : List Text :=
  es.map fun e => e.2.id

/-- The slot of the first component with an id. -/
def firstSlot? (es : List (Slot × Manifest)) (id : Text) : Option Slot :=
  (es.find? fun e => decide (e.2.id = id)).map Prod.fst

theorem idsOf_concat (es : List (Slot × Manifest)) (s : Slot) (m : Manifest) :
    idsOf (es ++ [(s, m)]) = idsOf es ++ [m.id] :=
  List.map_append

theorem firstSlot?_concat (es : List (Slot × Manifest)) (s : Slot) (m : Manifest) (id : Text) :
    firstSlot? (es ++ [(s, m)]) id =
      (firstSlot? es id).or (if m.id = id then some s else none) := by
  rw [firstSlot?, List.find?_append, Option.map_or, ← firstSlot?]
  by_cases h : m.id = id <;> simp [h]

theorem firstSlot?_eq_none_iff {id : Text} : firstSlot? es id = none ↔ id ∉ idsOf es := by
  simp [firstSlot?, idsOf]

theorem exists_mem_of_firstSlot? {id : Text} {s : Slot} (h : firstSlot? es id = some s) :
    ∃ m, (s, m) ∈ es := by
  obtain ⟨⟨s, m⟩, hfind, rfl⟩ := Option.map_eq_some_iff.1 h
  exact ⟨m, List.mem_of_find?_eq_some hfind⟩

/-- The slots have under each id the slot of the first component with it, and the ids in the order
in which they occur first. -/
structure Indexes (slots : OrderedMap Text Slot) (es : List (Slot × Manifest)) : Prop where
  keys : slots.keys = (idsOf es).eraseDups
  get? : ∀ id, slots.get? id = firstSlot? es id

theorem Indexes.contains_iff (h : Indexes slots es) {id : Text} :
    slots.contains id = true ↔ id ∈ idsOf es := by
  rw [OrderedMap.contains_iff_mem_keys, h.keys, List.mem_eraseDups]

/-- A component whose id is taken changes nothing. -/
theorem Indexes.concat_of_contains (h : Indexes slots es) {m : Manifest}
    (hm : slots.contains m.id = true) (s : Slot) : Indexes slots (es ++ [(s, m)]) where
  keys := by
    rw [h.keys, idsOf_concat, eraseDups_concat, if_pos (h.contains_iff.1 hm)]
  get? id := by
    rw [h.get?, firstSlot?_concat]
    by_cases hid : m.id = id
    · have hsome : firstSlot? es id ≠ none := fun hnone =>
        firstSlot?_eq_none_iff.1 hnone (hid ▸ h.contains_iff.1 hm)
      obtain ⟨q, hq⟩ := Option.ne_none_iff_exists'.1 hsome
      rw [hq, Option.some_or]
    · rw [if_neg hid, Option.or_none]

/-- A component whose id is new is entered. -/
theorem Indexes.concat_of_not_contains (h : Indexes slots es) {m : Manifest}
    (hm : ¬ slots.contains m.id = true) (s : Slot) :
    Indexes (slots.insert m.id s) (es ++ [(s, m)]) where
  keys := by
    rw [OrderedMap.keys_insert, if_neg fun hk => hm (OrderedMap.contains_iff_mem_keys.2 hk), h.keys,
      idsOf_concat, eraseDups_concat, if_neg fun hmem => hm (h.contains_iff.2 hmem)]
  get? id := by
    rw [OrderedMap.get?_insert, h.get?, firstSlot?_concat]
    by_cases hid : id = m.id
    · have hnone : firstSlot? es id = none :=
        firstSlot?_eq_none_iff.2 fun hmem => hm (h.contains_iff.2 (hid ▸ hmem))
      rw [if_pos hid, if_pos hid.symm, hnone, Option.none_or]
    · rw [if_neg hid, if_neg (Ne.symm hid), Option.or_none]

/-! ### Components of a tab -/

variable (tab place : Nat) (m : Manifest) (ms : List Manifest)

theorem slotted_cons :
    slotted tab place (m :: ms) = (⟨tab, place⟩, m) :: slotted tab (place + 1) ms := by
  rw [slotted, List.zipIdx_cons]
  rfl

theorem enter_cons_of_contains {m : Manifest} (h : slots.contains m.id = true) :
    enter tab place (m :: ms) slots =
      ((enter tab (place + 1) ms slots).1, place :: (enter tab (place + 1) ms slots).2) := by
  rw [enter, if_pos h]

theorem enter_cons_of_not_contains {m : Manifest} (h : ¬ slots.contains m.id = true) :
    enter tab place (m :: ms) slots =
      enter tab (place + 1) ms (slots.insert m.id ⟨tab, place⟩) := by
  rw [enter, if_neg h]

/-- With the components of a tab the slots index these, too. -/
theorem Indexes.enter (h : Indexes slots es) :
    Indexes (Registry.enter tab place ms slots).1 (es ++ slotted tab place ms) := by
  induction ms generalizing slots es place with
  | nil =>
    rw [show slotted tab place [] = [] from rfl, List.append_nil]
    exact h
  | cons m ms ih =>
    rw [slotted_cons, List.append_cons]
    by_cases hm : slots.contains m.id = true
    · rw [enter_cons_of_contains tab place ms hm]
      exact ih (place + 1) (h.concat_of_contains hm _)
    · rw [enter_cons_of_not_contains tab place ms hm]
      exact ih (place + 1) (h.concat_of_not_contains hm _)

/-- The component at a place of a tab has an id that occurs in front of it: among the given ids, or
in the tab. -/
def RepeatsAt (ids : List Text) (ms : List Manifest) (j : Nat) : Prop :=
  ∃ m, ms[j]? = some m ∧ m.id ∈ ids ++ (ms.take j).map Manifest.id

theorem repeatsAt_cons_zero (ids : List Text) : RepeatsAt ids (m :: ms) 0 ↔ m.id ∈ ids := by
  simp [RepeatsAt]

theorem repeatsAt_cons_succ (ids : List Text) (j : Nat) :
    RepeatsAt ids (m :: ms) (j + 1) ↔ RepeatsAt (ids ++ [m.id]) ms j := by
  simp [RepeatsAt]

/-- The places that are returned are those of the components whose ids occur in front of them. -/
theorem Indexes.mem_enter (h : Indexes slots es) {i : Nat} :
    i ∈ (Registry.enter tab place ms slots).2 ↔ ∃ j, i = place + j ∧ RepeatsAt (idsOf es) ms j := by
  induction ms generalizing slots es place with
  | nil => simp [Registry.enter, RepeatsAt]
  | cons m ms ih =>
    -- The first of the places, or one of the places behind it.
    have hsplit : (∃ j, i = place + j ∧ RepeatsAt (idsOf es) (m :: ms) j) ↔
        (i = place ∧ m.id ∈ idsOf es) ∨
          ∃ j, i = place + 1 + j ∧ RepeatsAt (idsOf (es ++ [(⟨tab, place⟩, m)])) ms j := by
      simp only [idsOf_concat, ← repeatsAt_cons_zero m ms, ← repeatsAt_cons_succ]
      constructor
      · rintro ⟨j, rfl, hj⟩
        cases j with
        | zero => exact .inl ⟨rfl, hj⟩
        | succ j => exact .inr ⟨j, by omega, hj⟩
      · rintro (⟨rfl, hj⟩ | ⟨j, rfl, hj⟩)
        · exact ⟨0, rfl, hj⟩
        · exact ⟨j + 1, by omega, hj⟩
    by_cases hm : slots.contains m.id = true
    · rw [enter_cons_of_contains tab place ms hm, hsplit, List.mem_cons,
        ih (place + 1) (h.concat_of_contains hm _), and_iff_left (h.contains_iff.1 hm)]
    · have hnew : ¬ (i = place ∧ m.id ∈ idsOf es) := fun hid => hm (h.contains_iff.2 hid.2)
      rw [enter_cons_of_not_contains tab place ms hm, hsplit, or_iff_right hnew,
        ih (place + 1) (h.concat_of_not_contains hm _)]

/-- The places that are returned increase. -/
theorem Indexes.pairwise_enter (h : Indexes slots es) :
    (Registry.enter tab place ms slots).2.Pairwise (· < ·) := by
  induction ms generalizing slots es place with
  | nil => exact List.Pairwise.nil
  | cons m ms ih =>
    by_cases hm : slots.contains m.id = true
    · have hrest := h.concat_of_contains hm ⟨tab, place⟩
      rw [enter_cons_of_contains tab place ms hm]
      refine List.pairwise_cons.2 ⟨fun i hi => ?_, ih (place + 1) hrest⟩
      obtain ⟨j, rfl, -⟩ := (hrest.mem_enter tab (place + 1) ms).1 hi
      omega
    · rw [enter_cons_of_not_contains tab place ms hm]
      exact ih (place + 1) (h.concat_of_not_contains hm _)

/-! ### Registries -/

variable {r : Registry}

theorem map_snd_slotted : (slotted tab place ms).map Prod.snd = ms := by
  rw [slotted, List.map_map]
  exact List.zipIdx_map_fst place ms

/-- The components of a registry are those of its tabs, one tab after another. -/
theorem map_snd_components (r : Registry) :
    r.components.map Prod.snd = r.tabs.flatMap Tab.components := by
  have htabs : r.tabs.zipIdx.flatMap (fun e => e.1.components) =
      (r.tabs.zipIdx.map Prod.fst).flatMap Tab.components := (List.flatMap_map ..).symm
  rw [components, List.map_flatMap]
  simp only [map_snd_slotted]
  rw [htabs, List.zipIdx_map_fst]

theorem idsOf_components (r : Registry) :
    idsOf r.components = (r.tabs.flatMap Tab.components).map Manifest.id := by
  rw [← map_snd_components, List.map_map]
  rfl

/-- A component is in its slot. -/
theorem at?_of_mem_components {s : Slot} {m : Manifest} (h : (s, m) ∈ r.components) :
    r.at? s = some m := by
  obtain ⟨⟨t, i⟩, ht, hm⟩ := List.mem_flatMap.1 h
  obtain ⟨⟨k, j⟩, hk, hslot⟩ := List.mem_map.1 hm
  obtain ⟨rfl, rfl⟩ := Prod.mk.inj hslot
  rw [List.mk_mem_zipIdx_iff_getElem?] at ht hk
  simp [at?, ht, hk]

/-- No two components are in one slot. -/
theorem nodup_slots (r : Registry) : (r.components.map Prod.fst).Nodup := by
  have hslots (e : Tab × Nat) : (slotted e.2 0 e.1.components).map Prod.fst =
      (e.1.components.zipIdx.map Prod.snd).map (Slot.mk e.2) := by
    rw [slotted, List.map_map, List.map_map]
    rfl
  rw [components, List.map_flatMap, List.nodup_flatMap]
  constructor
  · intro e _
    rw [hslots]
    exact (List.nodup_zipIdx_map_snd _).map fun i j h => (Slot.mk.inj h).2
  · -- The slots of two tabs differ by the number of the tab.
    refine (List.pairwise_map.1 (List.nodup_zipIdx_map_snd r.tabs)).imp fun {a b} hne => ?_
    show ((slotted a.2 0 a.1.components).map Prod.fst).Disjoint
      ((slotted b.2 0 b.1.components).map Prod.fst)
    rw [hslots, hslots]
    intro s hs hs'
    obtain ⟨i, -, rfl⟩ := List.mem_map.1 hs
    obtain ⟨j, -, hj⟩ := List.mem_map.1 hs'
    exact hne (Slot.mk.inj hj).1.symm

/-- Among components in distinct slots, those in the slots of the first ones with their ids have the
ids, each once, in the order in which they occur first. -/
theorem idsOf_filter_firstSlot (h : (es.map Prod.fst).Nodup) :
    idsOf (es.filter fun e => decide (firstSlot? es e.2.id = some e.1)) =
      (idsOf es).eraseDups := by
  induction es using List.reverseRecOn with
  | nil => rfl
  | append_singleton es e ih =>
    obtain ⟨s, m⟩ := e
    rw [List.map_append, List.nodup_append] at h
    -- The components in front have the same first slots as before.
    have hfront : es.filter (fun e => decide (firstSlot? (es ++ [(s, m)]) e.2.id = some e.1)) =
        es.filter fun e => decide (firstSlot? es e.2.id = some e.1) := by
      refine List.filter_congr fun e he => ?_
      have hsome : firstSlot? es e.2.id ≠ none := fun hnone =>
        firstSlot?_eq_none_iff.1 hnone (List.mem_map_of_mem (f := fun e => e.2.id) he)
      obtain ⟨q, hq⟩ := Option.ne_none_iff_exists'.1 hsome
      rw [firstSlot?_concat, hq, Option.some_or]
    rw [List.filter_append, hfront, List.filter_singleton, firstSlot?_concat, if_pos rfl,
      idsOf_concat, eraseDups_concat, ← ih h.1]
    cases hq : firstSlot? es m.id with
    | none =>
      rw [if_neg (firstSlot?_eq_none_iff.1 hq), ← idsOf_concat _ s]
      simp
    | some q =>
      -- The first component with the id is another one, in another slot.
      have hmem : m.id ∈ idsOf es := Decidable.not_not.1 fun hmem => by
        rw [firstSlot?_eq_none_iff.2 hmem] at hq
        cases hq
      obtain ⟨k, hk⟩ := exists_mem_of_firstSlot? hq
      have hne : q ≠ s := h.2.2 q (List.mem_map_of_mem (f := Prod.fst) hk) s (by simp)
      simp [hne, hmem]

/-- The slots of the registry index its components. -/
def Indexed (r : Registry) : Prop :=
  Indexes r.slots r.components

theorem components_push (r : Registry) (t : Tab) :
    (r.push t).1.components = r.components ++ slotted r.tabs.length 0 t.components := by
  show (r.tabs ++ [t]).zipIdx.flatMap (fun e => slotted e.2 0 e.1.components) = _
  rw [List.zipIdx_append, List.flatMap_append, Nat.zero_add]
  simp [components]

/-- One more tab leaves the slots an index. -/
theorem Indexed.push (h : r.Indexed) (t : Tab) : (r.push t).1.Indexed := by
  rw [Indexed, components_push]
  exact Indexes.enter r.tabs.length 0 t.components h

/-- The registry of the given tabs, added one after another. -/
def ofTabs (tabs : List Tab) : Registry :=
  tabs.foldl (fun r t => (r.push t).1) empty

theorem ofTabs_concat (tabs : List Tab) (t : Tab) :
    ofTabs (tabs ++ [t]) = ((ofTabs tabs).push t).1 := by
  rw [ofTabs, List.foldl_append]
  rfl

theorem tabs_ofTabs (tabs : List Tab) : (ofTabs tabs).tabs = tabs := by
  induction tabs using List.reverseRecOn with
  | nil => rfl
  | append_singleton tabs t ih =>
    rw [ofTabs_concat]
    exact congrArg (· ++ [t]) ih

theorem indexed_empty : empty.Indexed :=
  ⟨rfl, fun _ => rfl⟩

theorem indexed_ofTabs (tabs : List Tab) : (ofTabs tabs).Indexed := by
  induction tabs using List.reverseRecOn with
  | nil => exact indexed_empty
  | append_singleton tabs t ih =>
    rw [ofTabs_concat]
    exact ih.push t

/-! ### What is found -/

namespace Indexed

theorem contains_iff (h : r.Indexed) {id : Text} :
    r.contains id = true ↔ ∃ c ∈ r.tabs.flatMap Tab.components, c.id = id := by
  rw [Registry.contains, Indexes.contains_iff h, idsOf_components, List.mem_map]

/-- Under an id the first component with it is found. -/
theorem get?_eq (h : r.Indexed) (id : Text) :
    r.get? id = (r.tabs.flatMap Tab.components).find? fun c => decide (c.id = id) := by
  rw [Registry.get?, Indexes.get? h, firstSlot?, ← map_snd_components, List.find?_map,
    Function.comp_def]
  cases hfind : r.components.find? fun e => decide (e.2.id = id) with
  | none => rfl
  | some e => exact at?_of_mem_components (List.mem_of_find?_eq_some hfind)

theorem ids_eq (h : r.Indexed) :
    r.ids = ((r.tabs.flatMap Tab.components).map Manifest.id).eraseDups := by
  rw [← idsOf_components, ← idsOf_filter_firstSlot (nodup_slots r), ids]
  simp only [Indexes.get? h]
  rfl

theorem keys_eq_ids (h : r.Indexed) : r.slots.keys = r.ids := by
  rw [h.ids_eq, ← idsOf_components]
  exact Indexes.keys h

theorem isEmpty_iff (h : r.Indexed) :
    r.isEmpty = true ↔ r.tabs.flatMap Tab.components = [] := by
  have hempty : r.isEmpty = true ↔ r.slots.keys = [] := by
    simp [isEmpty, OrderedMap.isEmpty, OrderedMap.keys]
  rw [hempty, h.keys_eq_ids, h.ids_eq, List.eq_nil_iff_forall_not_mem]
  simp only [List.mem_eraseDups]
  rw [← List.eq_nil_iff_forall_not_mem, List.map_eq_nil_iff]

/-- The places returned with one more tab are those of the components in it whose ids occur in an
earlier tab, or in front of them in the tab. -/
theorem mem_push (h : r.Indexed) (t : Tab) {i : Nat} :
    i ∈ (r.push t).2 ↔ ∃ c, t.components[i]? = some c ∧
      ∃ d ∈ r.tabs.flatMap Tab.components ++ t.components.take i, d.id = c.id := by
  have henter : i ∈ (r.push t).2 ↔ _ := Indexes.mem_enter r.tabs.length 0 t.components h
  rw [henter]
  simp only [Nat.zero_add, exists_eq_left', RepeatsAt, idsOf_components, ← List.map_append,
    List.mem_map]

theorem pairwise_push (h : r.Indexed) (t : Tab) : (r.push t).2.Pairwise (· < ·) :=
  Indexes.pairwise_enter r.tabs.length 0 t.components h

end Indexed

/-- What is found in a registry that was built from tabs, and what it returns when one more tab is
added. -/
theorem ofTabs_spec (tabs : List Tab) :
    (ofTabs tabs).tabs = tabs ∧
      (∀ id, (ofTabs tabs).contains id = true ↔
        ∃ c ∈ tabs.flatMap Tab.components, c.id = id) ∧
      (∀ id, (ofTabs tabs).get? id =
        (tabs.flatMap Tab.components).find? fun c => decide (c.id = id)) ∧
      (ofTabs tabs).ids = ((tabs.flatMap Tab.components).map Manifest.id).eraseDups ∧
      (ofTabs tabs).ids.Nodup ∧
      (ofTabs tabs).size = (ofTabs tabs).ids.length ∧
      ((ofTabs tabs).isEmpty = true ↔ tabs.flatMap Tab.components = []) ∧
      ∀ t, ((ofTabs tabs).push t).2.Pairwise (· < ·) ∧
        ∀ i, i ∈ ((ofTabs tabs).push t).2 ↔ ∃ c, t.components[i]? = some c ∧
          ∃ d ∈ tabs.flatMap Tab.components ++ t.components.take i, d.id = c.id := by
  have h := indexed_ofTabs tabs
  have htabs := tabs_ofTabs tabs
  refine ⟨htabs, fun id => ?_, fun id => ?_, ?_, ?_, ?_, ?_,
    fun t => ⟨h.pairwise_push t, fun i => ?_⟩⟩
  · rw [h.contains_iff, htabs]
  · rw [h.get?_eq, htabs]
  · rw [h.ids_eq, htabs]
  · rw [← h.keys_eq_ids]
    exact (ofTabs tabs).slots.nodup_keys
  · rw [← h.keys_eq_ids]
    exact (List.length_map _).symm
  · rw [h.isEmpty_iff, htabs]
  · rw [h.mem_push, htabs]

end Formdoc.Registry

/-! ### Palettes -/

namespace Formdoc.Palette

theorem indexed_ofTabs (t : FileTree) (root : Text) (tabs : List TabSource) :
    (ofTabs t root tabs).registry.Indexed := by
  induction tabs using List.reverseRecOn with
  | nil => exact Registry.indexed_empty
  | append_singleton tabs s ih =>
    rw [ofTabs, List.foldl_append]
    exact ih.push _

end Formdoc.Palette
