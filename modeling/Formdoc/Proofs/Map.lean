/-
Maps built from pairs.

A map is determined by its keys in order and what it has under them
(`ext_get?`), and is the map that its own entries build (`ofList_entries`).
What a map built from pairs holds was among the pairs
(`mem_of_mem_entries_ofList`): its keys are theirs, each where it occurs first
(`keys_ofList`), and under a key it has what the last pair with the key says
(`get?_ofList`).

Pairs with distinct keys that are inserted into a map are looked up as they are
(`get?_foldl_of_mem`); their keys stand behind those of the map, but for the
keys that it had (`keys_foldl_insert`).  So a map whose entries are inserted
into another one is the result exactly if the keys of the other one are its
first ones (`foldl_insert_eq_iff`).
-/
import Formdoc.OrderedMap
import Mathlib.Algebra.GroupWithZero.Nat
import Mathlib.Data.List.Induction
import Mathlib.Data.List.Nodup

namespace Formdoc

theorem eraseDups_concat {α : Type} [BEq α] [LawfulBEq α] (as : List α) (a : α) :
    (as ++ [a]).eraseDups = if a ∈ as then as.eraseDups else as.eraseDups ++ [a] := by
  rw [List.eraseDups_append, List.removeAll, List.filter_singleton]
  by_cases h : a ∈ as
  · simp [h]
  · simp only [h, if_false, List.elem_eq_mem, decide_false, Bool.not_false]
    rfl

namespace OrderedMap

variable {κ ν : Type} [DecidableEq κ]

/-! ### One insertion -/

theorem upsert_of_not_mem {k : κ} (v : ν) {es : List (κ × ν)} (h : k ∉ es.map Prod.fst) :
    upsert k v es = es ++ [(k, v)] := by
  induction es with
  | nil => rfl
  | cons e es ih =>
    rw [List.map_cons, List.mem_cons, not_or] at h
    rw [upsert, if_neg (Ne.symm h.1), ih h.2]
    rfl

theorem mem_upsert {k : κ} {v : ν} {es : List (κ × ν)} {e : κ × ν} (h : e ∈ upsert k v es) :
    e = (k, v) ∨ e ∈ es := by
  induction es with
  | nil => exact .inl (List.mem_singleton.1 h)
  | cons d es ih =>
    rw [upsert] at h
    split at h
    · rcases List.mem_cons.1 h with rfl | h
      · exact .inl rfl
      · exact .inr (List.mem_cons_of_mem _ h)
    · rcases List.mem_cons.1 h with rfl | h
      · exact .inr List.mem_cons_self
      · exact (ih h).imp_right (List.mem_cons_of_mem _)

theorem mem_entries_insert {m : OrderedMap κ ν} {k : κ} {v : ν} {e : κ × ν}
    (h : e ∈ (m.insert k v).entries) : e = (k, v) ∨ e ∈ m.entries :=
  mem_upsert h

theorem mem_of_get? {m : OrderedMap κ ν} {k : κ} {v : ν} (h : m.get? k = some v) :
    (k, v) ∈ m.entries := by
  obtain ⟨⟨j, w⟩, he, rfl⟩ := Option.map_eq_some_iff.1 h
  obtain rfl : j = k := by simpa using List.find?_some he
  exact List.mem_of_find?_eq_some he

theorem mem_entries_insert_self (m : OrderedMap κ ν) (k : κ) (v : ν) :
    (k, v) ∈ (m.insert k v).entries :=
  mem_of_get? (by rw [get?_insert, if_pos rfl])

theorem get?_of_mem {m : OrderedMap κ ν} {k : κ} {v : ν} (h : (k, v) ∈ m.entries) :
    m.get? k = some v := by
  have hnodup := m.nodup_keys
  unfold get?
  generalize m.entries = es at h hnodup
  induction es with
  | nil => cases h
  | cons e es ih =>
    rw [List.map_cons, List.nodup_cons] at hnodup
    rcases List.mem_cons.1 h with rfl | h
    · simp
    · -- The key of the first entry is not among the others.
      have hne : ¬ e.1 = k := fun hek => hnodup.1 (hek ▸ List.mem_map_of_mem (f := Prod.fst) h)
      rw [List.find?_cons_of_neg (by simpa using hne)]
      exact ih h hnodup.2

theorem contains_iff_mem_keys {m : OrderedMap κ ν} {k : κ} :
    m.contains k = true ↔ k ∈ m.keys := by
  simp [contains, keys]

/-- A map is determined by its keys in order and what it has under them. -/
theorem ext_get? {a b : OrderedMap κ ν} (hk : a.keys = b.keys) (h : ∀ k, a.get? k = b.get? k) :
    a = b := by
  have hlen : a.entries.length = b.entries.length := by
    simpa [keys] using congrArg List.length hk
  refine OrderedMap.ext (List.ext_getElem hlen fun i hi hj => ?_)
  have hfst : a.entries[i].1 = b.entries[i].1 := by
    simpa [keys] using List.getElem_of_eq hk (by simpa [keys] using hi)
  have ha := get?_of_mem (k := a.entries[i].1) (v := a.entries[i].2) (List.getElem_mem hi)
  have hb := get?_of_mem (k := b.entries[i].1) (v := b.entries[i].2) (List.getElem_mem hj)
  rw [h, hfst, hb, Option.some_inj] at ha
  exact Prod.ext hfst ha.symm

theorem get?_eq_some_iff {m : OrderedMap κ ν} {k : κ} {v : ν} :
    m.get? k = some v ↔ (k, v) ∈ m.entries :=
  ⟨mem_of_get?, get?_of_mem⟩

theorem isEmpty_iff {m : OrderedMap κ ν} : m.isEmpty = true ↔ ∀ k, m.get? k = none := by
  rw [isEmpty, List.isEmpty_iff]
  constructor
  · intro h k
    rw [get?, h]
    rfl
  · intro h
    refine List.eq_nil_iff_forall_not_mem.2 fun e he => ?_
    have hget := h e.1
    rw [get?_of_mem he] at hget
    cases hget

/-- Maps that have the same under each key have the same entries, in some order. -/
theorem perm_of_get? {a b : OrderedMap κ ν} (h : ∀ k, a.get? k = b.get? k) :
    a.entries.Perm b.entries := by
  have hnodup (m : OrderedMap κ ν) : m.entries.Nodup := List.Nodup.of_map _ m.nodup_keys
  refine (List.perm_ext_iff_of_nodup (hnodup a) (hnodup b)).2 fun e => ?_
  rw [← get?_eq_some_iff (k := e.1), ← get?_eq_some_iff (k := e.1), h]

/-! ### Entries taken away -/

theorem get?_removeAll (m : OrderedMap κ ν) (p : κ → ν → Bool) (k : κ) :
    (m.removeAll p).get? k = (m.get? k).filter fun v => !p k v := by
  refine Option.ext fun v => ?_
  rw [get?_eq_some_iff, Option.filter_eq_some_iff, get?_eq_some_iff]
  exact List.mem_filter

theorem get?_erase (m : OrderedMap κ ν) (k j : κ) :
    (m.erase k).get? j = if j = k then none else m.get? j := by
  have hfilter : (m.erase k).get? j = (m.get? j).filter fun _ => !decide (j = k) :=
    get?_removeAll m (fun j _ => decide (j = k)) j
  rw [hfilter]
  by_cases h : j = k
  · rw [if_pos h]
    cases m.get? j <;> simp [h]
  · rw [if_neg h]
    cases m.get? j <;> simp [h]

/-! ### Values changed in place -/

/-- The map with a function applied to each value. -/
def mapValues {μ : Type} (f : ν → μ) (m : OrderedMap κ ν) : OrderedMap κ μ :=
  ⟨m.entries.map fun e => (e.1, f e.2), by
    rw [List.map_map]
    exact m.nodup_keys⟩

section MapValues

variable {μ : Type} (f : ν → μ) (m : OrderedMap κ ν)

omit [DecidableEq κ] in
@[simp] theorem keys_mapValues : (m.mapValues f).keys = m.keys :=
  List.map_map

@[simp] theorem get?_mapValues (k : κ) : (m.mapValues f).get? k = (m.get? k).map f := by
  unfold get? mapValues
  rw [List.find?_map, Option.map_map, Option.map_map]
  rfl

omit [DecidableEq κ] in
theorem mapValues_eq_self_iff {f : ν → ν} {m : OrderedMap κ ν} :
    m.mapValues f = m ↔ ∀ e ∈ m.entries, f e.2 = e.2 := by
  have hentries : m.mapValues f = m ↔ (m.entries.map fun e => (e.1, f e.2)) = m.entries.map id := by
    rw [List.map_id]
    exact ⟨fun h => congrArg entries h, fun h => OrderedMap.ext h⟩
  rw [hentries, List.map_inj_left]
  exact forall₂_congr fun e _ => Prod.ext_iff.trans (and_iff_right rfl)

end MapValues

/-! ### Insertions one after another -/

theorem entries_foldl_insert {m : OrderedMap κ ν} {es : List (κ × ν)}
    (h : ((m.entries ++ es).map Prod.fst).Nodup) :
    (es.foldl (fun m p => m.insert p.1 p.2) m).entries = m.entries ++ es := by
  induction es generalizing m with
  | nil => simp
  | cons e es ih =>
    have hk : e.1 ∉ m.entries.map Prod.fst := by
      rw [List.map_append, List.map_cons] at h
      intro hmem
      exact (List.nodup_append.1 h).2.2 e.1 hmem e.1 List.mem_cons_self rfl
    -- An entry under a new key goes to the end, and the later keys are still new.
    have he : (m.insert e.1 e.2).entries = m.entries ++ [e] := upsert_of_not_mem e.2 hk
    rw [List.foldl_cons, ih, he, List.append_assoc]
    · rfl
    · rw [he, List.append_assoc]
      exact h

/-- A map is built by its own entries. -/
theorem ofList_entries (m : OrderedMap κ ν) : ofList m.entries = m :=
  OrderedMap.ext (entries_foldl_insert m.nodup_keys)

theorem entries_ofList {es : List (κ × ν)} (h : (es.map Prod.fst).Nodup) :
    (ofList es).entries = es :=
  entries_foldl_insert h

theorem mem_entries_foldl_insert {m : OrderedMap κ ν} {es : List (κ × ν)} {e : κ × ν}
    (h : e ∈ (es.foldl (fun m p => m.insert p.1 p.2) m).entries) : e ∈ m.entries ∨ e ∈ es := by
  induction es generalizing m with
  | nil => exact .inl h
  | cons d es ih =>
    rcases ih h with h | h
    · rcases mem_entries_insert h with rfl | h
      · exact .inr List.mem_cons_self
      · exact .inl h
    · exact .inr (List.mem_cons_of_mem _ h)

/-- What a map built from pairs holds was among the pairs. -/
theorem mem_of_mem_entries_ofList {es : List (κ × ν)} {e : κ × ν} (h : e ∈ (ofList es).entries) :
    e ∈ es :=
  (mem_entries_foldl_insert h).resolve_left List.not_mem_nil

theorem sum_upsert_le (w : κ × ν → Nat) (k : κ) (v : ν) (es : List (κ × ν)) :
    ((upsert k v es).map w).sum ≤ (es.map w).sum + w (k, v) := by
  induction es with
  | nil => simp [upsert]
  | cons e es ih =>
    rw [upsert]
    split
    · simp only [List.map_cons, List.sum_cons]
      omega
    · simp only [List.map_cons, List.sum_cons]
      omega

/-- What the entries of a map weigh that is built from pairs is at most what the pairs weigh. -/
theorem sum_entries_ofList_le (w : κ × ν → Nat) (es : List (κ × ν)) :
    ((ofList es).entries.map w).sum ≤ (es.map w).sum := by
  have hfold (m : OrderedMap κ ν) :
      ((es.foldl (fun m p => m.insert p.1 p.2) m).entries.map w).sum ≤
        (m.entries.map w).sum + (es.map w).sum := by
    induction es generalizing m with
    | nil => simp
    | cons e es ih =>
      have hstep : ((m.insert e.1 e.2).entries.map w).sum ≤ (m.entries.map w).sum + w e :=
        sum_upsert_le w e.1 e.2 m.entries
      have hrest := ih (m.insert e.1 e.2)
      rw [List.foldl_cons, List.map_cons, List.sum_cons]
      omega
  have hempty := hfold empty
  rwa [show ((empty : OrderedMap κ ν).entries.map w).sum = 0 from rfl, Nat.zero_add] at hempty

/-- The keys of pairs with distinct keys stand behind those of the map into which the pairs are
inserted, but for the keys that it had. -/
theorem keys_foldl_insert {m : OrderedMap κ ν} {es : List (κ × ν)} (h : (es.map Prod.fst).Nodup) :
    (es.foldl (fun m p => m.insert p.1 p.2) m).keys =
      m.keys ++ (es.map Prod.fst).filter fun k => decide (k ∉ m.keys) := by
  induction es generalizing m with
  | nil => simp
  | cons e es ih =>
    rw [List.map_cons, List.nodup_cons] at h
    rw [List.foldl_cons, ih h.2, keys_insert, List.map_cons, List.filter_cons]
    by_cases hk : e.1 ∈ m.keys
    · simp [hk]
    · -- The new key is not among the later ones, so that it takes none of them away.
      have hlater : (es.map Prod.fst).filter (fun k => decide (k ∉ m.keys ++ [e.1])) =
          (es.map Prod.fst).filter fun k => decide (k ∉ m.keys) := by
        refine List.filter_congr fun k hmem => ?_
        have hne : k ≠ e.1 := by
          rintro rfl
          exact h.1 hmem
        simp [hne]
      rw [if_neg hk, hlater, if_pos (by simpa using hk), List.append_assoc]
      rfl

/-- What is looked up after insertions is what the pairs say, or else what was there before. -/
theorem get?_foldl_insert (m : OrderedMap κ ν) (es : List (κ × ν)) (k : κ) :
    (es.foldl (fun m p => m.insert p.1 p.2) m).get? k = ((ofList es).get? k).or (m.get? k) := by
  induction es generalizing m with
  | nil => rfl
  | cons e es ih =>
    have hcons : (ofList (e :: es)).get? k =
        ((ofList es).get? k).or (((empty : OrderedMap κ ν).insert e.1 e.2).get? k) := ih _
    rw [List.foldl_cons, ih, hcons, get?_insert, get?_insert]
    by_cases hk : k = e.1
    · simp [hk]
    · rw [if_neg hk, if_neg hk, show (empty : OrderedMap κ ν).get? k = none from rfl,
        Option.or_none]

/-- Pairs with distinct keys are looked up as they are inserted, whatever was there before. -/
theorem get?_foldl_of_mem {m : OrderedMap κ ν} {es : List (κ × ν)} (hes : (es.map Prod.fst).Nodup)
    {k : κ} {v : ν} (h : (k, v) ∈ es) :
    (es.foldl (fun m p => m.insert p.1 p.2) m).get? k = some v := by
  have hmem : (k, v) ∈ (ofList es).entries := by rwa [entries_ofList hes]
  rw [get?_foldl_insert, get?_of_mem hmem, Option.some_or]

/-- A map is what its entries make of another one exactly if the keys of that one are its first
ones. -/
theorem foldl_insert_eq_iff {m d : OrderedMap κ ν} :
    d.entries.foldl (fun m p => m.insert p.1 p.2) m = d ↔ m.keys <+: d.keys := by
  have hkeys := keys_foldl_insert (m := m) d.nodup_keys
  constructor
  · intro h
    rw [h] at hkeys
    exact ⟨_, hkeys.symm⟩
  · rintro ⟨t, ht⟩
    -- The keys of the other map are not among the rest of the keys.
    have hnodup : (m.keys ++ t).Nodup := ht ▸ d.nodup_keys
    have hfilter : d.keys.filter (fun k => decide (k ∉ m.keys)) = t := by
      rw [← ht, List.filter_append, List.filter_eq_nil_iff.2 (by simp), List.nil_append,
        List.filter_eq_self.2]
      intro k hk
      have : k ∉ m.keys := fun hm => (List.nodup_append.1 hnodup).2.2 k hm k hk rfl
      simpa using this
    refine ext_get? (by rw [hkeys, ← ht]; exact congrArg _ hfilter) fun k => ?_
    rw [get?_foldl_insert, ofList_entries]
    cases hd : d.get? k with
    | some v => rfl
    | none =>
      -- A key without a value in the map is no key of the other one either.
      rw [Option.none_or]
      cases hm : m.get? k with
      | none => rfl
      | some v =>
        have hmem : k ∈ d.keys := by
          rw [← ht]
          exact List.mem_append_left _ (List.mem_map_of_mem (f := Prod.fst) (mem_of_get? hm))
        obtain ⟨e, he, rfl⟩ := List.mem_map.1 hmem
        rw [get?_of_mem he] at hd
        cases hd

/-- A map is what its changed values make of another one exactly if nothing is changed and the keys
of the other one are its first ones. -/
theorem foldl_mapValues_eq_iff {f : ν → ν} {m d : OrderedMap κ ν} :
    (d.mapValues f).entries.foldl (fun m p => m.insert p.1 p.2) m = d ↔
      d.mapValues f = d ∧ m.keys <+: d.keys := by
  constructor
  · intro h
    have hsame : d.mapValues f = d := by
      refine mapValues_eq_self_iff.2 fun e he => ?_
      have hget := get?_foldl_of_mem (m := m) (nodup_keys (d.mapValues f))
        (List.mem_map_of_mem (f := fun e : κ × ν => (e.1, f e.2)) he)
      rw [h, get?_of_mem he, Option.some_inj] at hget
      exact hget.symm
    rw [hsame] at h
    exact ⟨hsame, foldl_insert_eq_iff.1 h⟩
  · rintro ⟨hsame, hkeys⟩
    rw [hsame]
    exact foldl_insert_eq_iff.2 hkeys

theorem ofList_append (es fs : List (κ × ν)) :
    ofList (es ++ fs) = fs.foldl (fun m p => m.insert p.1 p.2) (ofList es) :=
  List.foldl_append

/-- The keys of a map built from pairs are those of the pairs, each where it occurs first. -/
theorem keys_ofList [BEq κ] [LawfulBEq κ] (es : List (κ × ν)) :
    (ofList es).keys = (es.map Prod.fst).eraseDups := by
  induction es using List.reverseRecOn with
  | nil => rfl
  | append_singleton es e ih =>
    rw [ofList_append, List.foldl_cons, List.foldl_nil, keys_insert, ih, List.map_append,
      List.map_singleton, eraseDups_concat]
    by_cases h : e.1 ∈ es.map Prod.fst
    · rw [if_pos h, if_pos (List.mem_eraseDups.2 h)]
    · rw [if_neg h, if_neg fun hmem => h (List.mem_eraseDups.1 hmem)]

/-- A map built from pairs has under a key what the last pair with the key says. -/
theorem get?_ofList (es : List (κ × ν)) (k : κ) :
    (ofList es).get? k = ((es.filter fun e => decide (e.1 = k)).getLast?).map Prod.snd := by
  induction es using List.reverseRecOn with
  | nil => rfl
  | append_singleton es e ih =>
    rw [ofList_append, List.foldl_cons, List.foldl_nil, get?_insert, ih, List.filter_append,
      List.filter_singleton]
    by_cases h : e.1 = k
    · simp [h]
    · simp [h, Ne.symm h]

theorem entries_ofList_ne_nil {es : List (κ × ν)} (h : es ≠ []) : (ofList es).entries ≠ [] := by
  obtain ⟨fs, e, rfl⟩ := (List.eq_nil_or_concat es).resolve_left h
  rw [List.concat_eq_append, ofList_append]
  exact List.ne_nil_of_mem (mem_entries_insert_self (ofList fs) e.1 e.2)

theorem isEmpty_ofList_iff {es : List (κ × ν)} : (ofList es).isEmpty = true ↔ es = [] := by
  rw [isEmpty, List.isEmpty_iff]
  constructor
  · intro h
    by_contra hne
    exact entries_ofList_ne_nil hne h
  · rintro rfl
    rfl

end OrderedMap

end Formdoc
