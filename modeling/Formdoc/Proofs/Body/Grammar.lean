/-
What a tag says, told from its text.

The words of a tag are the segments between its blanks that are not empty (`words_eq_segments`).
The first one names the component.  Each other one gives a property (`Gives`) or is ignored, and
`Given` collects the properties of all of them, in one way only (`exists_given`, `Given.unique`).

A segment gives a property exactly if the reader finds that property in it
(`property?_eq_some_iff_gives`).  So a tag that is not blank is read as one component, with the
first segment for its name and the map that the properties of the others build
(`blocksOf_tag_eq_singleton`).
-/
import Formdoc.Proofs.Body.Component

namespace Formdoc

open Text

/-! ### Properties -/

namespace Tag

/-- The text is the given one between two marks, and the mark does not occur in it. -/
def Quoted (q : Char) (v s : Text) : Prop :=
  s = q :: v ++ [q] ∧ q ∉ v

theorem inside?_eq_some_iff {q : Char} {s v : Text} : inside? q s = some v ↔ Quoted q v s :=
  ⟨fun h => (inside?_eq_some h).symm, fun ⟨hs, hv⟩ => hs ▸ inside?_of_not_mem hv⟩

theorem inside?_eq_none_iff {q : Char} {s : Text} :
    inside? q s = none ↔ ∀ v, ¬ Quoted q v s := by
  simp only [← inside?_eq_some_iff, Option.eq_none_iff_forall_ne_some, ne_eq]

/-- The value of a text behind an equals sign: what stands between double quotation marks, or else
between single ones, or else the text itself. -/
inductive ValueOf (s : Text) : Text → Prop
  | double {v : Text} (h : Quoted '"' v s) : ValueOf s v
  | single {v : Text} (hd : ∀ u, ¬ Quoted '"' u s) (h : Quoted '\'' v s) : ValueOf s v
  | bare (hd : ∀ u, ¬ Quoted '"' u s) (hs : ∀ u, ¬ Quoted '\'' u s) : ValueOf s s

theorem valueOf_iff {s v : Text} : ValueOf s v ↔ v = propertyValue s := by
  unfold propertyValue
  constructor
  · intro h
    cases h with
    | double h => rw [inside?_eq_some_iff.2 h]
    | single hd h => rw [inside?_eq_none_iff.2 hd, inside?_eq_some_iff.2 h]
    | bare hd hs => rw [inside?_eq_none_iff.2 hd, inside?_eq_none_iff.2 hs]
  · rintro rfl
    split
    · rename_i v h
      exact .double (inside?_eq_some_iff.1 h)
    · rename_i v hd h
      exact .single (inside?_eq_none_iff.1 hd) (inside?_eq_some_iff.1 h)
    · rename_i hd hs
      exact .bare (inside?_eq_none_iff.1 hd) (inside?_eq_none_iff.1 hs)

/-- The segment gives the property: it consists of the key, an equals sign, and a text that is not
empty and has the value. -/
def Gives (w key value : Text) : Prop :=
  key ≠ [] ∧ (∀ c ∈ key, isWordChar c = true) ∧
    ∃ r, r ≠ [] ∧ w = key ++ '=' :: r ∧ ValueOf r value

theorem property?_eq_some_iff_gives {w key value : Text} :
    property? w = some (key, .text value) ↔ Gives w key value := by
  rw [property?_eq_some_iff, isKey_iff, and_assoc, Gives]
  simp only [valueOf_iff, Property.text.injEq]

theorem property?_eq_none_iff {w : Text} :
    property? w = none ↔ ∀ key value, ¬ Gives w key value := by
  constructor
  · intro h key value hg
    rw [property?_eq_some_iff_gives.2 hg] at h
    cases h
  · intro h
    refine Option.eq_none_iff_forall_ne_some.2 fun e he => ?_
    -- All properties that are read are texts.
    obtain ⟨-, r, -, -, hv⟩ := property?_eq_some_iff.1 he
    obtain ⟨key, value⟩ := e
    cases hv
    exact h _ _ (property?_eq_some_iff_gives.1 he)

/-- The properties that segments give, in order. The other segments are ignored. -/
inductive Given : List Text → List (Text × Text) → Prop
  | nil : Given [] []
  | gives {w key value : Text} {ws : List Text} {es : List (Text × Text)} (h : Gives w key value)
    (hs : Given ws es) : Given (w :: ws) ((key, value) :: es)
  | ignored {w : Text} {ws : List Text} {es : List (Text × Text)}
    (h : ∀ key value, ¬ Gives w key value) (hs : Given ws es) : Given (w :: ws) es

/-- A property whose value is a text. -/
def textProperty (e : Text × Text) : Text × Property :=
  (e.1, .text e.2)

theorem Given.filterMap_eq {ws : List Text} {es : List (Text × Text)} (h : Given ws es) :
    ws.filterMap property? = es.map textProperty := by
  induction h with
  | nil => rfl
  | gives h _ ih => rw [List.filterMap_cons, property?_eq_some_iff_gives.2 h, ih]; rfl
  | ignored h _ ih => rw [List.filterMap_cons, property?_eq_none_iff.2 h, ih]

theorem Given.unique {ws : List Text} {es fs : List (Text × Text)} (he : Given ws es)
    (hf : Given ws fs) : es = fs := by
  have hinj : Function.Injective textProperty := fun a b h => by
    obtain ⟨hkey, hvalue⟩ := Prod.mk.inj h
    exact Prod.ext hkey (Property.text.inj hvalue)
  exact List.map_injective_iff.2 hinj (he.filterMap_eq.symm.trans hf.filterMap_eq)

theorem exists_given (ws : List Text) : ∃ es, Given ws es := by
  induction ws with
  | nil => exact ⟨[], .nil⟩
  | cons w ws ih =>
    obtain ⟨es, hes⟩ := ih
    by_cases h : ∃ key value, Gives w key value
    · obtain ⟨key, value, h⟩ := h
      exact ⟨_, .gives h hes⟩
    · exact ⟨es, .ignored (fun key value hg => h ⟨key, value, hg⟩) hes⟩

end Tag

/-! ### Tags -/

namespace Body

open Tag

/-- A tag that is not blank is read as one component, without an error. Its first segment is the
name, and the others give the properties: each key stands where it is given first, and has the value
that it is given last. -/
theorem blocksOf_tag_eq_singleton {content : Text} {closing : Closing} (p : Position)
    (h : (Token.tag content closing).value ≠ []) :
    ∃ c rest es, blocksOf ⟨.tag content closing, p⟩ = [.component c] ∧
      errorOf ⟨.tag content closing, p⟩ = none ∧ c.position = p ∧
      segments (Token.tag content closing).value = c.name :: rest ∧
      Given rest es ∧ (∀ fs, Given rest fs → fs = es) ∧
      c.props.keys = (es.map Prod.fst).eraseDups ∧
      (∀ key, c.props.get? key =
        ((es.filter fun e => decide (e.1 = key)).getLast?).map fun e => .text e.2) ∧
      (c.props.isEmpty = true ↔ es = []) := by
  have hsegments : segments (Token.tag content closing).value = words content := by
    rw [words_eq_segments]
    exact segments_trim content
  obtain ⟨name, rest, hwords⟩ : ∃ name rest, words content = name :: rest :=
    List.exists_cons_of_ne_nil fun hnil => h (words_eq_nil_iff.1 hnil)
  obtain ⟨es, hes⟩ := exists_given rest
  have hcomponent : component? content p =
      some ⟨name, OrderedMap.ofList (es.map textProperty), p⟩ := by
    rw [component?, hwords, ← hes.filterMap_eq]
  refine ⟨⟨name, OrderedMap.ofList (es.map textProperty), p⟩, rest, es, ?_, ?_, rfl,
    hsegments.trans hwords, hes, fun fs hfs => hfs.unique hes, ?_, fun key => ?_, ?_⟩
  · simp [blocksOf, hcomponent]
  · simp [errorOf, hcomponent]
  · rw [OrderedMap.keys_ofList, List.map_map]
    rfl
  · rw [OrderedMap.get?_ofList, List.filter_map, List.getLast?_map, Option.map_map]
    rfl
  · rw [OrderedMap.isEmpty_ofList_iff, List.map_eq_nil_iff]

/-- A tag with a key that is given twice, marks in values, and segments that give no property. -/
def crowded : Text :=
  " Box k=\"a\"b\" x='\"' y= k=\"2\" n-o=1 z=' ".toList

theorem blocksOf_crowded :
    (Token.tag crowded .slash).value ≠ [] ∧
      ∃ c rest es, blocksOf ⟨.tag crowded .slash, Position.first⟩ = [.component c] ∧
        segments (Token.tag crowded .slash).value = c.name :: rest ∧ Given rest es ∧
        c.props.keys = (es.map Prod.fst).eraseDups ∧ c.name = "Box".toList ∧
        c.props.entries = [("k".toList, .text "2".toList), ("x".toList, .text "\"".toList),
          ("z".toList, .text "'".toList)] ∧
        rest.length = 6 := by
  have hvalue : (Token.tag crowded .slash).value ≠ [] := by decide +kernel
  obtain ⟨c, rest, es, hblocks, -, -, hsegments, hes, -, hkeys, -⟩ :=
    blocksOf_tag_eq_singleton Position.first hvalue
  have hread : (blocksOf ⟨.tag crowded .slash, Position.first⟩).flatMap Block.components =
      [⟨"Box".toList, OrderedMap.ofList [("k".toList, .text "2".toList),
        ("x".toList, .text "\"".toList), ("z".toList, .text "'".toList)], Position.first⟩] := by
    decide +kernel
  have hlength : (segments (Token.tag crowded .slash).value).length = 7 := by decide +kernel
  rw [hblocks] at hread
  obtain rfl : c = _ := List.singleton_inj.1 hread
  rw [hsegments] at hlength
  exact ⟨hvalue, _, rest, es, hblocks, hsegments, hes, hkeys, rfl, by decide +kernel,
    Nat.succ_inj.1 hlength⟩

end Body

end Formdoc
