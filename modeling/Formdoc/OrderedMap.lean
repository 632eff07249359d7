/-
Maps that remember the order of insertion.

A map is a list of entries in which no key occurs twice.  Inserting under a
key that is present keeps its place and changes its value; under a new key it
adds an entry at the end.  So the keys after an insertion are the keys before
it, with the new key behind them unless it was among them (`keys_insert`), and
looking up the key gives the value just inserted (`get?_insert`).
-/
namespace Formdoc

/-- The entries with `v` under `k`: in the place of the entry for `k`, or at the end. -/
def upsert {κ ν : Type} [DecidableEq κ] (k : κ) (v : ν) : List (κ × ν) → List (κ × ν)
  | [] => [(k, v)]
  | e :: es => if e.1 = k then (k, v) :: es else e :: upsert k v es

theorem map_fst_upsert {κ ν : Type} [DecidableEq κ] (k : κ) (v : ν) (es : List (κ × ν)) :
    (upsert k v es).map Prod.fst =
      if k ∈ es.map Prod.fst then es.map Prod.fst else es.map Prod.fst ++ [k] := by
  induction es with
  | nil => simp [upsert]
  | cons e es ih =>
    by_cases h : e.1 = k
    · simp [upsert, h]
    · simp only [upsert, h, if_false, List.map_cons, ih, List.mem_cons, Ne.symm h, false_or]
      split <;> simp

theorem nodup_upsert {κ ν : Type} [DecidableEq κ] (k : κ) (v : ν) {es : List (κ × ν)}
    (h : (es.map Prod.fst).Nodup) : ((upsert k v es).map Prod.fst).Nodup := by
  rw [map_fst_upsert]
  split
  · exact h
  · rename_i hk
    refine List.nodup_append.2 ⟨h, by simp, ?_⟩
    rintro a ha b hb rfl
    simp only [List.mem_singleton] at hb
    exact hk (hb ▸ ha)

/-- A map in order of insertion: each key has one entry. -/
structure OrderedMap (κ ν : Type) where
  entries : List (κ × ν)
  nodup_keys : (entries.map Prod.fst).Nodup

namespace OrderedMap

variable {κ ν : Type}

/-- The map without entries. -/
def empty : OrderedMap κ ν := ⟨[], List.nodup_nil⟩

instance : Inhabited (OrderedMap κ ν) := ⟨empty⟩

instance [DecidableEq κ] [DecidableEq ν] : DecidableEq (OrderedMap κ ν) := fun a b =>
  decidable_of_iff (a.entries = b.entries)
    ⟨fun h => by cases a; cases b; cases h; rfl, fun h => h ▸ rfl⟩

@[ext] theorem ext {a b : OrderedMap κ ν} (h : a.entries = b.entries) : a = b := by
  cases a; cases b; cases h; rfl

/-- The keys in order. -/
def keys (m : OrderedMap κ ν) : List κ :=
  m.entries.map Prod.fst

/-- The map has no entry. -/
def isEmpty (m : OrderedMap κ ν) : Bool :=
  m.entries.isEmpty

/-- The number of entries. -/
def size (m : OrderedMap κ ν) : Nat :=
  m.entries.length

variable [DecidableEq κ]

/-- The value under a key. -/
def get? (m : OrderedMap κ ν) (k : κ) : Option ν :=
  (m.entries.find? fun e => decide (e.1 = k)).map Prod.snd

/-- The key has an entry. -/
def contains (m : OrderedMap κ ν) (k : κ) : Bool :=
  m.entries.any fun e => decide (e.1 = k)

/-- The map with `v` under `k`. -/
def insert (m : OrderedMap κ ν) (k : κ) (v : ν) : OrderedMap κ ν :=
  ⟨upsert k v m.entries, nodup_upsert k v m.nodup_keys⟩

/-- The map without an entry for `k`. -/
def erase (m : OrderedMap κ ν) (k : κ) : OrderedMap κ ν :=
  ⟨m.entries.filter fun e => !decide (e.1 = k),
    m.nodup_keys.sublist (List.filter_sublist.map Prod.fst)⟩

/-- The map without the entries that `p` selects. -/
def removeAll (m : OrderedMap κ ν) (p : κ → ν → Bool) : OrderedMap κ ν :=
  ⟨m.entries.filter fun e => !p e.1 e.2, m.nodup_keys.sublist (List.filter_sublist.map Prod.fst)⟩

/-- The map that results from inserting the pairs one after another. -/
def ofList (pairs : List (κ × ν)) : OrderedMap κ ν :=
  pairs.foldl (fun m p => m.insert p.1 p.2) empty

/-- The two maps have the same keys, in any order, and related values under each. -/
def agrees (related : ν → ν → Bool) (a b : OrderedMap κ ν) : Bool :=
  a.size == b.size &&
    a.entries.all fun e =>
      match b.get? e.1 with
      | some v => related e.2 v
      | none => false

theorem keys_insert (m : OrderedMap κ ν) (k : κ) (v : ν) :
    (m.insert k v).keys = if k ∈ m.keys then m.keys else m.keys ++ [k] :=
  map_fst_upsert k v m.entries

theorem find?_upsert (es : List (κ × ν)) (k j : κ) (v : ν) :
    ((upsert k v es).find? fun e => decide (e.1 = j)).map Prod.snd =
      if j = k then some v else (es.find? fun e => decide (e.1 = j)).map Prod.snd := by
  induction es with
  | nil =>
    by_cases h : j = k
    · simp [upsert, h]
    · simp [upsert, h, Ne.symm h]
  | cons e es ih =>
    by_cases he : e.1 = k
    · by_cases h : j = k
      · simp [upsert, he, h]
      · have hj : ¬ k = j := fun hk => h hk.symm
        simp [upsert, he, h, hj]
    · by_cases h : e.1 = j
      · have hj : ¬ j = k := fun hk => he (h.trans hk)
        simp [upsert, h, hj]
      · simpa [upsert, he, h] using ih

theorem get?_insert (m : OrderedMap κ ν) (k j : κ) (v : ν) :
    (m.insert k v).get? j = if j = k then some v else m.get? j :=
  find?_upsert m.entries k j v

end OrderedMap

end Formdoc
