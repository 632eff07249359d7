/-
What a manifest is read from.

A line is valid for a key if it is not silent and consists of the key, a colon
and a tail that is not empty (`Manifest.tail?_eq_some_iff`).  The value under a
key is that of the tail on the last line that is valid for it (`get?_fields`).

So a manifest is made of the last valid lines of five keys and of nothing else
(`read_last_lines`).  The first of the id, the label and the template for which
there is no valid line is missed, and where there is none of these a manifest is
read.  Lines may be added that are not valid for a known key, and lines may
change places as long as those for one key stay in their order.
-/
import Formdoc.Palette.Manifest
import Formdoc.Proofs.Map
import Formdoc.Proofs.Value.Written

namespace Formdoc

open Text

theorem Text.isSilent_eq_false_iff {line : Text} :
    isSilent line = false ↔ trim line ≠ [] ∧ (trim line).head? ≠ some '#' := by
  unfold isSilent
  cases trim line with
  | nil => simp
  | cons c s => simp

namespace Manifest

/-! ### Valid lines -/

/-- What follows the colon on a line that is valid for a key. -/
def tail? (key line : Text) : Option Text :=
  if isKey key && !isSilent line then (after? (key ++ [':']) line).filter fun t => !t.isEmpty
  else none

theorem tail?_eq_some_iff {key line tail : Text} :
    tail? key line = some tail ↔
      (trim line ≠ [] ∧ (trim line).head? ≠ some '#') ∧
        line = key ++ ':' :: tail ∧ isKey key = true ∧ tail ≠ [] := by
  rw [← isSilent_eq_false_iff, tail?]
  by_cases hk : isKey key = true
  · cases hs : isSilent line with
    | true => simp
    | false =>
      simp only [hk, Bool.not_false, Bool.and_self, if_true, Option.filter_eq_some_iff,
        after?_eq_some_iff, List.append_assoc, List.singleton_append, Bool.not_eq_true',
        List.isEmpty_eq_false_iff, ne_eq, true_and]
  · simp [hk]

/-- The value that a tail gives a key. -/
def valueOf (key tail : Text) : Text :=
  if key = iconKey then Icon.decode (unquote (trim tail)) else unquote (trim tail)

theorem entry?_eq_some_iff {line key value : Text} :
    entry? line = some (key, value) ↔
      ∃ tail, tail? key line = some tail ∧ valueOf key tail = value := by
  have hvalid (k t : Text) : tail? k line = some t ↔
      isSilent line = false ∧ keyedValue? line = some (k, t) := by
    rw [tail?_eq_some_iff, isSilent_eq_false_iff, keyedValue?, Option.filter_eq_some_iff,
      keyed?_eq_some_iff]
    simp only [Bool.not_eq_true', List.isEmpty_eq_false_iff]
    tauto
  unfold entry?
  cases hs : isSilent line with
  | true =>
    simp only [if_true, hvalid, hs]
    simp
  | false =>
    simp only [Bool.false_eq_true, if_false, Option.map_eq_some_iff, hvalid, hs, true_and,
      Prod.exists, Prod.mk.injEq, valueOf]
    constructor
    · rintro ⟨k, t, ht, rfl, hv⟩
      exact ⟨t, ht, hv⟩
    · rintro ⟨t, ht, hv⟩
      exact ⟨key, t, ht, rfl, hv⟩

/-- A line is valid for one key at most. -/
theorem eq_of_tail? {j k line s t : Text} (hj : tail? j line = some s)
    (hk : tail? k line = some t) : j = k := by
  have hs := entry?_eq_some_iff.2 ⟨s, hj, rfl⟩
  rw [entry?_eq_some_iff.2 ⟨t, hk, rfl⟩] at hs
  exact (Prod.mk.inj (Option.some_inj.1 hs)).1.symm

/-! ### Lines for one key -/

/-- The tails on the lines that are valid for a key, in order. -/
def tails (key : Text) (ls : List Text) : List Text :=
  ls.filterMap (tail? key)

/-- The tail on the last line that is valid for a key. -/
def lastTail? (key content : Text) : Option Text :=
  (tails key (linesOf content)).getLast?

theorem filter_filterMap_entry? (key : Text) (ls : List Text) :
    ((ls.filterMap entry?).filter fun e => decide (e.1 = key)) =
      (tails key ls).map fun t => (key, valueOf key t) := by
  rw [tails, List.filter_filterMap, List.map_filterMap]
  refine List.filterMap_congr fun line _ => Option.ext fun e => ?_
  obtain ⟨k, v⟩ := e
  simp only [Option.filter_eq_some_iff, decide_eq_true_eq, Option.map_eq_some_iff, Prod.mk.injEq]
  constructor
  · rintro ⟨he, rfl⟩
    obtain ⟨t, ht, hv⟩ := entry?_eq_some_iff.1 he
    exact ⟨t, ht, rfl, hv⟩
  · rintro ⟨t, ht, rfl, hv⟩
    exact ⟨entry?_eq_some_iff.2 ⟨t, ht, hv⟩, rfl⟩

/-- The value under a key is that of the last line for it. -/
theorem get?_fields (content key : Text) :
    (fields content).get? key = (lastTail? key content).map (valueOf key) := by
  rw [fields, OrderedMap.get?_ofList, filter_filterMap_entry?, List.getLast?_map, Option.map_map]
  rfl

/-! ### Lines that change nothing -/

/-- The keys that a manifest is made of. -/
def knownKeys : List Text :=
  [RequiredField.id.key, RequiredField.label.key, RequiredField.template.key, iconKey,
    descriptionKey]

/-- The same lines, those for one key in the same order. -/
def Reordered (ls ks : List Text) : Prop :=
  ls.Perm ks ∧ ∀ key, tails key ls = tails key ks

/-- The line is valid for no known key: it is silent, or of another form, or for another key. -/
def Idle (line : Text) : Prop :=
  ∀ key ∈ knownKeys, tail? key line = none

instance (line : Text) : Decidable (Idle line) :=
  inferInstanceAs (Decidable (∀ key ∈ knownKeys, tail? key line = none))

/-- The lines of the first list are those of the second one, but for idle lines. -/
inductive Padded : List Text → List Text → Prop
  | nil : Padded [] []
  | kept {line : Text} {ls ks : List Text} : Padded ls ks → Padded (line :: ls) (line :: ks)
  | added {line : Text} {ls ks : List Text} : Idle line → Padded ls ks → Padded ls (line :: ks)

theorem Padded.tails_eq {ls ks : List Text} (h : Padded ls ks) {key : Text}
    (hkey : key ∈ knownKeys) : tails key ks = tails key ls := by
  unfold tails
  induction h with
  | nil => rfl
  | @kept line _ _ _ ih =>
    cases ht : tail? key line with
    | none => rw [List.filterMap_cons_none ht, List.filterMap_cons_none ht, ih]
    | some t => rw [List.filterMap_cons_some ht, List.filterMap_cons_some ht, ih]
  | added hidle _ ih => rw [List.filterMap_cons_none (hidle key hkey), ih]

/-- Neighbours that are valid for different keys change places. -/
theorem reordered_swap {j k a b s t : Text} (ha : tail? j a = some s) (hb : tail? k b = some t)
    (hjk : j ≠ k) (front rear : List Text) :
    Reordered (front ++ a :: b :: rear) (front ++ b :: a :: rear) := by
  refine ⟨(List.Perm.swap b a rear).append_left front, fun key => ?_⟩
  have hnone : tail? key a = none ∨ tail? key b = none := by
    cases hs : tail? key a with
    | none => exact .inl rfl
    | some u =>
      cases ht : tail? key b with
      | none => exact .inr rfl
      | some v => exact absurd ((eq_of_tail? ha hs).trans (eq_of_tail? ht hb)) hjk
  simp only [tails, List.filterMap_append]
  congr 1
  rcases hnone with hnone | hnone
  · simp only [List.filterMap_cons, hnone]
  · simp only [List.filterMap_cons, hnone]

theorem read_eq_of_lastTail? {content other : Text}
    (h : ∀ key ∈ knownKeys, lastTail? key other = lastTail? key content) :
    read other = read content := by
  have hget (key : Text) (hkey : key ∈ knownKeys) :
      (fields other).get? key = (fields content).get? key := by
    rw [get?_fields, get?_fields, h key hkey]
  have hrequired (f : RequiredField) (hkey : f.key ∈ knownKeys) :
      required (fields other) f = required (fields content) f := by
    rw [required, hget f.key hkey, required]
  unfold read
  simp only [hrequired .id (by decide), hrequired .label (by decide),
    hrequired .template (by decide), hget iconKey (by decide), hget descriptionKey (by decide)]

/-! ### The manifest of a text -/

/-- The value of a manifest under a key. -/
def value? (content key : Text) : Option Text :=
  (lastTail? key content).map (valueOf key)

/-- The first of the fields that must be there for which a text has no valid line. -/
def firstMissing? (content : Text) : Option RequiredField :=
  [.id, .label, .template].find? fun f => (lastTail? f.key content).isNone

/-- The manifest has the values of the last lines, and with it those of its fields that must be
there. -/
structure Describes (content : Text) (m : Manifest) : Prop where
  id : value? content RequiredField.id.key = some m.id
  label : value? content RequiredField.label.key = some m.label
  template : value? content RequiredField.template.key = some m.template
  icon : value? content iconKey = m.icon
  description : value? content descriptionKey = m.description

theorem Describes.unique {content : Text} {m n : Manifest} (hm : Describes content m)
    (hn : Describes content n) : m = n := by
  obtain ⟨i, l, c, t, d⟩ := m
  obtain ⟨hid, hlabel, htemplate, rfl, rfl⟩ := hm
  obtain ⟨i', l', c', t', d'⟩ := n
  obtain ⟨hid', hlabel', htemplate', rfl, rfl⟩ := hn
  obtain rfl : i = i' := Option.some_inj.1 (hid.symm.trans hid')
  obtain rfl : l = l' := Option.some_inj.1 (hlabel.symm.trans hlabel')
  obtain rfl : t = t' := Option.some_inj.1 (htemplate.symm.trans htemplate')
  rfl

theorem Describes.firstMissing? {content : Text} {m : Manifest} (h : Describes content m) :
    firstMissing? content = none := by
  have hsome {key v : Text} (hv : value? content key = some v) :
      ¬ (lastTail? key content).isNone = true := by
    rw [value?] at hv
    obtain ⟨t, ht, -⟩ := Option.map_eq_some_iff.1 hv
    rw [ht]
    exact Bool.false_ne_true
  refine List.find?_eq_none.2 fun f _ => ?_
  cases f with
  | id => exact hsome h.id
  | label => exact hsome h.label
  | template => exact hsome h.template

/-- The first field that is missing is missed, and a manifest is read if there is none. -/
theorem read_cases (content : Text) :
    (∃ f, firstMissing? content = some f ∧ read content = .error f) ∨
      ∃ m, Describes content m ∧ read content = .ok m := by
  unfold read firstMissing?
  simp only [required, get?_fields]
  cases hid : lastTail? RequiredField.id.key content with
  | none => exact .inl ⟨.id, by simp [hid], rfl⟩
  | some i =>
    cases hlabel : lastTail? RequiredField.label.key content with
    | none => exact .inl ⟨.label, by simp [hid, hlabel], rfl⟩
    | some l =>
      cases htemplate : lastTail? RequiredField.template.key content with
      | none => exact .inl ⟨.template, by simp [hid, hlabel, htemplate], rfl⟩
      | some t =>
        refine .inr ⟨_, ⟨?_, ?_, ?_, rfl, rfl⟩, rfl⟩
        · rw [value?, hid]
          rfl
        · rw [value?, hlabel]
          rfl
        · rw [value?, htemplate]
          rfl

theorem read_eq_ok_iff {content : Text} {m : Manifest} :
    read content = .ok m ↔ Describes content m := by
  rcases read_cases content with ⟨f, hf, hread⟩ | ⟨n, hn, hread⟩
  · rw [hread]
    refine iff_of_false nofun fun hm => ?_
    rw [hm.firstMissing?] at hf
    cases hf
  · rw [hread, Except.ok.injEq]
    exact ⟨fun h => h ▸ hn, fun hm => hn.unique hm⟩

theorem read_eq_error_iff {content : Text} {f : RequiredField} :
    read content = .error f ↔ firstMissing? content = some f := by
  rcases read_cases content with ⟨g, hg, hread⟩ | ⟨n, hn, hread⟩
  · rw [hread, hg, Except.error.injEq, Option.some_inj]
  · rw [hread, hn.firstMissing?]
    exact iff_of_false nofun nofun

/-- A manifest is read from the last valid line of each known key, or the first field is missed for
which there is none. Lines that are idle make no difference, nor does the order of lines for
different keys. -/
theorem read_last_lines (content : Text) :
    (∀ m, read content = .ok m ↔ Describes content m) ∧
      (∀ f, read content = .error f ↔ firstMissing? content = some f) ∧
      (firstMissing? content = none → ∃ m, read content = .ok m) ∧
      (∀ other, (∀ key ∈ knownKeys, lastTail? key other = lastTail? key content) →
        read other = read content) ∧
      (∀ other, Reordered (linesOf content) (linesOf other) → read other = read content) ∧
      ∀ other, Padded (linesOf content) (linesOf other) → read other = read content := by
  refine ⟨fun m => read_eq_ok_iff, fun f => read_eq_error_iff, fun hnone => ?_,
    fun other => read_eq_of_lastTail?, fun other h => read_eq_of_lastTail? fun key _ => ?_,
    fun other h => read_eq_of_lastTail? fun key hkey => ?_⟩
  · rcases read_cases content with ⟨f, hf, -⟩ | ⟨m, -, hread⟩
    · rw [hnone] at hf
      cases hf
    · exact ⟨m, hread⟩
  · rw [lastTail?, ← h.2 key, lastTail?]
  · rw [lastTail?, h.tails_eq hkey, lastTail?]

/-- A manifest with two ids and an icon. -/
def tickFile : Text :=
  "id: 'Box'\nlabel: Tick\r\nicon: \"\\u2611\"\nid: Tick\ntemplate: [% Tick /%]\n".toList

/-- Its lines, two of them in the other order. -/
def tickFileReordered : Text :=
  "id: 'Box'\nicon: \"\\u2611\"\nlabel: Tick\nid: Tick\ntemplate: [% Tick /%]".toList

/-- Its lines, and others that are idle. -/
def tickFilePadded : Text :=
  ("# a box\nid: 'Box'\nlabel: Tick\nsize: 2\nicon: \"\\u2611\"\nid: Tick\nid:\n id: Tack\n" ++
    "template: [% Tick /%]").toList

theorem read_last_lines_tick :
    Describes tickFile ⟨"Tick".toList, "Tick".toList, some "\u2611".toList, "[% Tick /%]".toList,
        none⟩ ∧
      firstMissing? tickFile = none ∧
      Reordered (linesOf tickFile) (linesOf tickFileReordered) ∧
      Padded (linesOf tickFile) (linesOf tickFilePadded) ∧
      read tickFileReordered = read tickFile ∧ read tickFilePadded = read tickFile := by
  obtain ⟨hread, -, -, -, hreordered, hpadded⟩ := read_last_lines tickFile
  have hlines : linesOf tickFile = ["id: 'Box'".toList] ++ "label: Tick".toList ::
      "icon: \"\\u2611\"".toList :: ["id: Tick".toList, "template: [% Tick /%]".toList] := by
    decide +kernel
  have hdescribes : Describes tickFile
      ⟨"Tick".toList, "Tick".toList, some "\u2611".toList, "[% Tick /%]".toList, none⟩ :=
    (hread _).1 (by decide +kernel)
  have hswap : Reordered (linesOf tickFile) (linesOf tickFileReordered) := by
    have hlines' : linesOf tickFileReordered = ["id: 'Box'".toList] ++
        "icon: \"\\u2611\"".toList :: "label: Tick".toList ::
        ["id: Tick".toList, "template: [% Tick /%]".toList] := by decide +kernel
    rw [hlines, hlines']
    exact reordered_swap (j := "label".toList) (k := "icon".toList) (s := " Tick".toList)
      (t := " \"\\u2611\"".toList) (by decide +kernel) (by decide +kernel) (by decide) _ _
  have hpad : Padded (linesOf tickFile) (linesOf tickFilePadded) := by
    have hlines' : linesOf tickFilePadded = ["# a box".toList, "id: 'Box'".toList,
        "label: Tick".toList, "size: 2".toList, "icon: \"\\u2611\"".toList, "id: Tick".toList,
        "id:".toList, " id: Tack".toList, "template: [% Tick /%]".toList] := by decide +kernel
    rw [hlines, hlines']
    exact .added (by decide +kernel) (.kept (.kept (.added (by decide +kernel)
      (.kept (.kept (.added (by decide +kernel) (.added (by decide +kernel) (.kept .nil))))))))
  exact ⟨hdescribes, hdescribes.firstMissing?, hswap, hpad, hreordered _ hswap, hpadded _ hpad⟩

end Manifest

end Formdoc
