/-
Setting a field, and reading the field again.

`setField?` succeeds exactly on the documents that have metadata, no open tag
and no error in their bodies, and then writes the document with the value
inserted (`setField?_eq_ok_iff`).  What is written reads back exactly if its
name is a key and it is not a negative integer (`get?_setField?_eq_iff`): an
entry under another name is skipped, and a negative integer becomes a text.
-/
import Formdoc.Document.Edit
import Formdoc.Proofs.Document.Written

namespace Formdoc

open Text

/-- The values a field is set to: null, truth values, integers of 64 bits with a sign, and
texts. -/
def Json.IsFieldValue : Json → Prop
  | .null => True
  | .bool _ => True
  | .int n => -(maxInteger + 1 : Int) ≤ n ∧ n ≤ maxInteger
  | .text _ => True
  | _ => False

namespace Json.IsFieldValue

variable {v : Json}

theorem isScalar (h : v.IsFieldValue) : v.IsScalar := by
  cases v with
  | array items => exact h
  | object fields => exact h
  | _ => trivial

theorem readable_iff (h : v.IsFieldValue) : v.Readable ↔ ∀ n, v = .int n → 0 ≤ n := by
  cases v with
  | int n =>
    refine ⟨fun hr m hm => ?_, fun hn => ⟨hn n rfl, h.2⟩⟩
    cases hm
    exact hr.1
  | null => simp [Json.Readable]
  | bool b => simp [Json.Readable]
  | text s => simp [Json.Readable]
  | float x => exact h.elim
  | array items => exact h.elim
  | object fields => exact h.elim

/-- A value is read back from its line exactly if it is not a negative integer. -/
theorem read_write_eq_iff (h : v.IsFieldValue) :
    Field.read (' ' :: Field.write v) = v ↔ ∀ n, v = .int n → 0 ≤ n := by
  constructor
  · rintro heq n rfl
    by_contra hn
    rw [Field.read_write_negative (by omega)] at heq
    cases heq
  · exact fun hn => Field.read_write (h.readable_iff.2 hn)

end Json.IsFieldValue

namespace Document

/-- The document that a text denotes, with a value in a field. -/
def withField (source name : Text) (value : Json) : Document :=
  { (read source).document with data := (read source).document.data.insert name value }

/-- Setting a field succeeds on the documents that have metadata, no open tag and no error. -/
theorem setField?_eq_ok_iff {source name text : Text} {value : Json} :
    setField? source name value = .ok text ↔
      Body.Terminated (Regions.read source).body ∧ (Body.read (Regions.read source).body).2 = [] ∧
        (Regions.read source).metadata.entries ≠ [] ∧
        text = write (withField source name value) := by
  unfold setField?
  cases hu : unterminatedTag? (Regions.read source).body with
  | some p =>
    have hn : ¬ Body.Terminated (Regions.read source).body := by
      rw [← Body.unterminatedTag?_eq_none_iff, hu]
      simp
    simp [hn]
  | none =>
    have ht := Body.unterminatedTag?_eq_none_iff.1 hu
    unfold Reading.result
    rw [errors_read]
    cases he : (Body.read (Regions.read source).body).2 with
    | cons d ds => simp
    | nil =>
      simp only [List.isEmpty_nil, if_true, ht, true_and, metadata_read]
      cases hm : (Regions.read source).metadata.entries with
      | nil => simp [OrderedMap.isEmpty, hm]
      | cons e es =>
        simp only [OrderedMap.isEmpty, hm, List.isEmpty_cons, Bool.false_eq_true, if_false, ne_eq,
          reduceCtorEq, not_false_eq_true, true_and, Except.ok.injEq]
        exact eq_comm

section Updated

variable {source name text : Text} {value : Json}

theorem entries_withField_ne_nil : (withField source name value).data.entries ≠ [] :=
  List.ne_nil_of_mem (OrderedMap.mem_entries_insert_self ..)

theorem linear_withField (hk : isKey name = true) (hv : value.IsScalar) :
    (withField source name value).data.Linear := by
  intro e he
  rcases OrderedMap.mem_entries_insert he with rfl | he
  · exact ⟨hk, hv⟩
  · exact Regions.linear_read source e he

theorem isBlank_head_body (h : setField? source name value = .ok text) (c : Char)
    (hc : (Body.write (withField source name value).body).head? = some c) : isBlank c = false := by
  obtain ⟨-, herr, hm, -⟩ := setField?_eq_ok_iff.1 h
  exact isBlank_head_write_read hm herr c hc

/-- The regions of a document in which a field has been set. -/
theorem regions_setField? (h : setField? source name value = .ok text) (hk : isKey name = true)
    (hv : value.IsScalar) :
    Regions.read text =
      ⟨(Metadata.read (Regions.read source).metadata.block 2).1,
        trim (Regions.bodyPart ((Regions.read source).metadata.spill ++
          laidOut (Body.write (Body.read (Regions.read source).body).1))),
        (((Regions.read source).data.insert name value).entries.map Data.reread).foldl
          (fun m p => m.insert p.1 p.2) (Data.read (Regions.swallowed
            ((Regions.read source).metadata.spill ++
              laidOut (Body.write (Body.read (Regions.read source).body).1)))),
        (Metadata.read (Regions.read source).metadata.block 2).2⟩ := by
  obtain ⟨-, -, hm, rfl⟩ := setField?_eq_ok_iff.1 h
  exact regions_read_write (d := withField source name value) hm (Regions.keyed_read source)
    (isBlank_head_body h) entries_withField_ne_nil (linear_withField hk hv)

/-- The regions of a document in which a field has been set, the content of whose section starts
with what it has swallowed of the body. -/
theorem read_setField? (h : setField? source name value = .ok text) (hk : isKey name = true)
    (hv : value.IsScalar) :
    ∃ content, Regions.read text =
        ⟨(Metadata.read (Regions.read source).metadata.block 2).1,
          trim (Regions.bodyPart ((Regions.read source).metadata.spill ++
            laidOut (Body.write (Body.read (Regions.read source).body).1))),
          (((Regions.read source).data.insert name value).entries.map Data.reread).foldl
            (fun m p => m.insert p.1 p.2) (Data.read content),
          (Metadata.read (Regions.read source).metadata.block 2).2⟩ ∧
      (Regions.firstCut Regions.sectionStart? ((Regions.read source).metadata.spill ++
        laidOut (Body.write (Body.read (Regions.read source).body).1)) = none → content = []) :=
  ⟨_, regions_setField? h hk hv, Regions.swallowed_of_none⟩

/-- A field under a key is read as what its line is read as, whatever stands around it. -/
theorem get?_setField?_of_isKey (h : setField? source name value = .ok text)
    (hk : isKey name = true) (hv : value.IsScalar) :
    (read text).document.data.get? name = some (Field.read (' ' :: Field.write value)) := by
  have hmem : (name, Field.read (' ' :: Field.write value)) ∈
      ((Regions.read source).data.insert name value).entries.map Data.reread :=
    List.mem_map_of_mem (f := Data.reread) (OrderedMap.mem_entries_insert_self _ name value)
  have hnodup : ((((Regions.read source).data.insert name value).entries.map
      Data.reread).map Prod.fst).Nodup := by
    rw [List.map_map]
    exact ((Regions.read source).data.insert name value).nodup_keys
  rw [data_read, regions_setField? h hk hv, OrderedMap.get?_foldl_of_mem hnodup hmem]

/-- A field that has been set is read back exactly if its name is a key and its value is not a
negative integer. -/
theorem get?_setField?_eq_iff (hv : value.IsFieldValue)
    (h : setField? source name value = .ok text) :
    (read text).document.data.get? name = some value ↔
      isKey name = true ∧ ∀ n, value = .int n → 0 ≤ n := by
  by_cases hk : isKey name = true
  · rw [get?_setField?_of_isKey h hk hv.isScalar, Option.some_inj, hv.read_write_eq_iff]
    exact (and_iff_right hk).symm
  -- All keys that are read are keys.
  · refine iff_of_false (fun hget => hk ?_) (fun hboth => hk hboth.1)
    rw [data_read] at hget
    exact (Regions.linear_read text _ (OrderedMap.mem_of_get? hget)).1

end Updated

/-- A document with metadata and nothing else. -/
def bare : Text :=
  "---\nt: x\n---\n".toList

/-- The document with a text of two lines in a field. -/
def bareWithText : Text :=
  "---\nt: x\n---\n---\ndata:\n  k: \"a\\nb\"\n---\n".toList

theorem get?_bareWithText :
    setField? bare "k".toList (.text "a\nb".toList) = .ok bareWithText ∧
      ((read bareWithText).document.data.get? "k".toList = some (.text "a\nb".toList) ↔
        isKey "k".toList = true ∧ ∀ n, Json.text "a\nb".toList = .int n → 0 ≤ n) :=
  have hset : setField? bare "k".toList (.text "a\nb".toList) = .ok bareWithText := by
    decide +kernel
  ⟨hset, get?_setField?_eq_iff trivial hset⟩

/-- A field that is set to a negative integer holds a text when it is read. -/
theorem not_forall_get?_setField? : ¬ ∀ (source name text : Text) (value : Json),
    value.IsFieldValue → setField? source name value = .ok text →
      (read text).document.data.get? name = some value := by
  intro h
  have hset : setField? bare "a".toList (.int (-5)) =
      .ok "---\nt: x\n---\n---\ndata:\n  a: -5\n---\n".toList := by decide +kernel
  have hread : (read "---\nt: x\n---\n---\ndata:\n  a: -5\n---\n".toList).document.data.get?
      "a".toList = some (.text "-5".toList) := by rfl
  have hvalue : (Json.int (-5)).IsFieldValue := ⟨by decide, by decide⟩
  have hlost := h _ _ _ _ hvalue hset
  rw [hread] at hlost
  cases hlost

end Document

end Formdoc
