/-
Components as tags, and tags as components.

A component is `Legible` if its name and its properties can stand in a tag.
All components that are read are (`Tag.legible_of_named?`).  The tag of a
legible component is one tag (`Legible.tagsOf_write`), and reading it gives the
component with its property values quoted once more where they hold a quotation
mark (`Legible.named?_content`); so the component is read back exactly when no
value holds one (`Legible.named?_content_eq_iff`).
-/
import Formdoc.Proofs.Body.Shape
import Formdoc.Proofs.Map
import Formdoc.Proofs.Text.Words
import Formdoc.Proofs.Value.Written

namespace Formdoc

open Text

/-! ### What a tag can say -/

/-- A row of characters, none of them blank, without a closing mark. -/
structure Solid (s : Text) : Prop where
  not_blank : ∀ c ∈ s, isBlank c = false
  not_close : ¬ closeMark <:+: s

/-- A component whose name and properties can stand in a tag. -/
structure Component.Legible (c : Component) : Prop where
  name_ne : c.name ≠ []
  name_solid : Solid c.name
  isKey_of_mem : ∀ e ∈ c.props.entries, isKey e.1 = true
  solid_of_mem : ∀ e ∈ c.props.entries, ∃ s, e.2 = .text s ∧ Solid s

/-- No text in the properties of the component holds a quotation mark. -/
def Component.Unquoted (c : Component) : Prop :=
  ∀ e ∈ c.props.entries, ∀ s, e.2 = .text s → '"' ∉ s

theorem Solid.mono {s t : Text} (h : Solid t) (hs : s <:+: t) : Solid s :=
  ⟨fun c hc => h.not_blank c (hs.subset hc), fun hi => h.not_close (hi.trans hs)⟩

/-! ### Reading properties -/

namespace Tag

theorem inside?_eq_some {q : Char} {s v : Text} (h : inside? q s = some v) :
    q ∉ v ∧ s = q :: v ++ [q] := by
  unfold inside? at h
  split at h
  · rename_i c d r
    split at h
    · rename_i hc
      obtain ⟨rfl, hl, hn⟩ := hc
      cases h
      obtain ⟨t, ht⟩ := List.getLast?_eq_some_iff.1 hl
      rw [ht, List.dropLast_concat] at hn ⊢
      exact ⟨hn, by rw [List.cons_append]⟩
    · cases h
  · cases h

theorem inside?_of_not_mem {q : Char} {v : Text} (h : q ∉ v) :
    inside? q (q :: v ++ [q]) = some v := by
  cases v with
  | nil => simp [inside?]
  | cons c v =>
    have hl : (c :: (v ++ [q])).getLast? = some q := by
      rw [← List.cons_append, List.getLast?_concat]
    have hd : (c :: (v ++ [q])).dropLast = c :: v := by
      rw [← List.cons_append, List.dropLast_concat]
    simp only [List.cons_append, inside?, hl, hd, h, not_false_eq_true, and_self, if_true]

theorem inside?_of_head {q c : Char} {s : Text} (h : c ≠ q) : inside? q (c :: s) = none := by
  cases s with
  | nil => rfl
  | cons d s => simp [inside?, h]

/-- A value between quotation marks, as it is read. -/
def requote (s : Text) : Text :=
  if '"' ∈ s then '"' :: s ++ ['"'] else s

theorem requote_eq_self_iff {s : Text} : requote s = s ↔ '"' ∉ s := by
  unfold requote
  split
  · rename_i h
    refine ⟨fun heq => ?_, fun hn => absurd h hn⟩
    have := congrArg List.length heq
    simp only [List.length_append, List.length_cons] at this
    omega
  · rename_i h
    exact ⟨fun _ => h, fun _ => rfl⟩

theorem propertyValue_quoted (s : Text) : propertyValue ('"' :: s ++ ['"']) = requote s := by
  have hsingle : inside? '\'' ('"' :: s ++ ['"']) = none := inside?_of_head (by decide)
  unfold propertyValue
  -- A quotation mark inside keeps the outer ones from being taken off.
  by_cases hm : '"' ∈ s
  · have hdouble : inside? '"' ('"' :: s ++ ['"']) = none := by
      cases hi : inside? '"' ('"' :: s ++ ['"']) with
      | none => rfl
      | some v =>
        obtain ⟨hv, heq⟩ := inside?_eq_some hi
        rw [List.cons_append, List.cons_append, List.cons.injEq] at heq
        rw [List.append_cancel_right heq.2] at hm
        exact absurd hm hv
    rw [hdouble, hsingle, requote, if_pos hm]
  · rw [inside?_of_not_mem hm, requote, if_neg hm]

theorem infix_propertyValue (s : Text) : propertyValue s <:+: s := by
  unfold propertyValue
  split
  · rename_i v hv
    rw [(inside?_eq_some hv).2]
    exact ⟨['"'], ['"'], rfl⟩
  · rename_i v _ hv
    rw [(inside?_eq_some hv).2]
    exact ⟨['\''], ['\''], rfl⟩
  · exact List.infix_refl s

/-- A word gives a property if it is a key, an equals sign, and a text that is not empty. -/
theorem property?_eq_some_iff {w : Text} {e : Text × Property} :
    property? w = some e ↔
      isKey e.1 = true ∧ ∃ r, r ≠ [] ∧ w = e.1 ++ '=' :: r ∧ e.2 = .text (propertyValue r) := by
  constructor
  · intro h
    have hall : ∀ c ∈ w.takeWhile isWordChar, isWordChar c = true := fun _ => List.mem_takeWhile_imp
    have happ : w.takeWhile isWordChar ++ w.dropWhile isWordChar = w :=
      List.takeWhile_append_dropWhile
    unfold property? at h
    generalize w.takeWhile isWordChar = k at h hall happ
    generalize w.dropWhile isWordChar = d at h happ
    split at h
    · cases h
    · rename_i hne
      cases h
      exact ⟨isKey_iff.2 ⟨fun hk => hne hk, hall⟩, _, List.cons_ne_nil _ _, happ.symm, rfl⟩
    · cases h
  · obtain ⟨k, v⟩ := e
    rintro ⟨hk, r, hr, rfl, rfl⟩
    obtain ⟨hne, hall⟩ := isKey_iff.1 hk
    obtain ⟨htake, hdrop⟩ := span_append (b := '=' :: r) hall fun c hc => by
      obtain rfl : '=' = c := Option.some_inj.1 hc
      decide
    obtain ⟨c, k, rfl⟩ := List.exists_cons_of_ne_nil hne
    obtain ⟨d, r, rfl⟩ := List.exists_cons_of_ne_nil hr
    unfold property?
    rw [htake, hdrop]
    rfl

theorem property?_quoted {k : Text} (hk : isKey k = true) (s : Text) :
    property? (k ++ ['=', '"'] ++ s ++ ['"']) = some (k, .text (requote s)) := by
  refine property?_eq_some_iff.2 ⟨hk, '"' :: s ++ ['"'], by simp, by simp, ?_⟩
  rw [propertyValue_quoted]

/-- Every component that a tag names is legible, and its parts stand in the tag. -/
theorem legible_of_named? {content : Text} {c : Component} (h : named? content = some c)
    (hm : ¬ closeMark <:+: content) :
    c.Legible ∧ c.name <:+: content ∧
      ∀ e ∈ c.props.entries, e.1 <:+: content ∧ ∀ s, e.2 = .text s → s <:+: content := by
  unfold named? component? at h
  cases hw : words content with
  | nil =>
    rw [hw] at h
    cases h
  | cons name rest =>
    rw [hw] at h
    cases h
    -- Name and properties are words of the content, or parts of words.
    have hword (w : Text) (hmem : w ∈ name :: rest) : w ≠ [] ∧ Solid w ∧ w <:+: content := by
      obtain ⟨hne, hall, hinf⟩ := infix_of_mem_words (hw ▸ hmem)
      exact ⟨hne, ⟨hall, fun hi => hm (hi.trans hinf)⟩, hinf⟩
    have hprop (e : Text × Property)
        (he : e ∈ (OrderedMap.ofList (rest.filterMap property?)).entries) :
        isKey e.1 = true ∧ e.1 <:+: content ∧ ∃ s, e.2 = .text s ∧ Solid s ∧ s <:+: content := by
      obtain ⟨w, hmem, hp⟩ := List.mem_filterMap.1 (OrderedMap.mem_of_mem_entries_ofList he)
      obtain ⟨-, hsolid, hinf⟩ := hword w (List.mem_cons_of_mem _ hmem)
      obtain ⟨hk, r, -, rfl, hv⟩ := property?_eq_some_iff.1 hp
      have hr : propertyValue r <:+: e.1 ++ '=' :: r :=
        (infix_propertyValue r).trans ⟨e.1 ++ ['='], [], by simp⟩
      exact ⟨hk, List.IsInfix.trans ⟨[], '=' :: r, rfl⟩ hinf, _, hv, hsolid.mono hr,
        hr.trans hinf⟩
    obtain ⟨hne, hsolid, hinf⟩ := hword name List.mem_cons_self
    refine ⟨⟨hne, hsolid, fun e he => (hprop e he).1, fun e he => ?_⟩, hinf, fun e he => ?_⟩
    · obtain ⟨-, -, s, hs, hss, -⟩ := hprop e he
      exact ⟨s, hs, hss⟩
    · obtain ⟨-, hk, s, hs, -, hsi⟩ := hprop e he
      refine ⟨hk, fun t ht => ?_⟩
      rw [hs] at ht
      cases ht
      exact hsi

end Tag

/-! ### Writing components -/

/-- A property as it is read from the tag in which it is written. -/
def Property.requoted : Property → Property
  | text s => text (Tag.requote s)
  | v => v

theorem Property.requoted_eq_self_iff {s : Text} {v : Property} (h : v = text s) :
    v.requoted = v ↔ '"' ∉ s := by
  subst h
  rw [requoted, text.injEq, Tag.requote_eq_self_iff]

namespace Component

/-- A component as it is read from the tag in which it is written. -/
def requoted (c : Component) : Component :=
  { c with props := c.props.mapValues Property.requoted }

/-- The properties of a tag, and the blank behind them. -/
def propsText (es : List (Text × Property)) : Text :=
  es.flatMap (fun e => e.2.write e.1) ++ [' ']

/-- What stands between the marks of a component's tag. -/
def content (c : Component) : Text :=
  ' ' :: c.name ++ propsText c.props.entries

theorem write_eq (c : Component) : c.write = openMark ++ (c.content ++ closeMark ++ [']']) := by
  simp [write, content, propsText]

theorem propsText_cons_text (k s : Text) (es : List (Text × Property)) :
    propsText ((k, .text s) :: es) = ' ' :: ((k ++ ['=', '"'] ++ s ++ ['"']) ++ propsText es) := by
  simp [propsText, Property.write]

theorem propsText_eq_cons {es : List (Text × Property)} (h : ∀ e ∈ es, ∃ s, e.2 = .text s) :
    ∃ r, propsText es = ' ' :: r := by
  cases es with
  | nil => exact ⟨[], rfl⟩
  | cons e es =>
    obtain ⟨k, v⟩ := e
    obtain ⟨s, rfl⟩ := h _ List.mem_cons_self
    exact ⟨_, propsText_cons_text k s es⟩

/-- The properties of a tag are separated by blanks. -/
theorem isBlank_head_propsText {es : List (Text × Property)} (h : ∀ e ∈ es, ∃ s, e.2 = .text s)
    (c : Char) (hc : (propsText es).head? = some c) : isBlank c = true := by
  obtain ⟨r, hr⟩ := propsText_eq_cons h
  rw [hr] at hc
  obtain rfl : ' ' = c := Option.some_inj.1 hc
  decide

section Marks

variable {m : Text} (hm : m ≠ []) (hblank : ' ' ∉ m) (hquote : '"' ∉ m) (heq : '=' ∉ m)

include hm hblank hquote heq

theorem not_infix_propsText {es : List (Text × Property)}
    (h : ∀ e ∈ es, ¬ m <:+: e.1 ∧ ∃ s, e.2 = .text s ∧ ¬ m <:+: s) : ¬ m <:+: propsText es := by
  induction es with
  | nil =>
    rw [propsText, List.flatMap_nil, List.nil_append, infix_cons_iff_of_not_mem hblank hm,
      List.infix_nil]
    exact hm
  | cons e es ih =>
    obtain ⟨k, v⟩ := e
    obtain ⟨hk, s, rfl, hs⟩ := h _ List.mem_cons_self
    have hform : k ++ ['=', '"'] ++ s ++ ['"'] ++ propsText es =
        k ++ '=' :: '"' :: (s ++ '"' :: propsText es) := by simp
    -- The mark would have to stand between two of the characters that it lacks.
    rw [propsText_cons_text, hform, infix_cons_iff_of_not_mem hblank hm,
      infix_append_cons_iff heq hm, infix_cons_iff_of_not_mem hquote hm,
      infix_append_cons_iff hquote hm]
    rintro (hi | hi | hi)
    · exact hk hi
    · exact hs hi
    · exact ih (fun d hd => h d (List.mem_cons_of_mem _ hd)) hi

/-- A mark that no part of a component holds, and that lacks the characters between the parts, is
not in its tag. -/
theorem not_infix_content {c : Component} (hname : ¬ m <:+: c.name)
    (hprops : ∀ e ∈ c.props.entries, ¬ m <:+: e.1 ∧ ∃ s, e.2 = .text s ∧ ¬ m <:+: s) :
    ¬ m <:+: c.content := by
  obtain ⟨r, hr⟩ := propsText_eq_cons fun e he => (hprops e he).2.imp fun _ h => h.1
  have hrest := not_infix_propsText hm hblank hquote heq hprops
  rw [hr, infix_cons_iff_of_not_mem hblank hm] at hrest
  rw [content, hr, List.cons_append, infix_cons_iff_of_not_mem hblank hm,
    infix_append_cons_iff hblank hm]
  exact not_or.2 ⟨hname, hrest⟩

end Marks

/-- The words of a tag's properties give the properties, with values quoted once more where they
hold a quotation mark. -/
theorem filterMap_words_propsText {es : List (Text × Property)} (hk : ∀ e ∈ es, isKey e.1 = true)
    (hs : ∀ e ∈ es, ∃ s, e.2 = .text s ∧ Solid s) :
    (words (propsText es)).filterMap Tag.property? = es.map fun e => (e.1, e.2.requoted) := by
  induction es with
  | nil =>
    rw [propsText, List.flatMap_nil, List.nil_append, words_cons_blank _ (by decide), words_nil]
    rfl
  | cons e es ih =>
    obtain ⟨k, v⟩ := e
    obtain ⟨s, rfl, hsolid⟩ := hs _ List.mem_cons_self
    have hkey := hk _ List.mem_cons_self
    have hsub := fun d (hd : d ∈ es) => hs d (List.mem_cons_of_mem _ hd)
    -- The property is one word: no part of it is blank, and a blank follows.
    have hword : ∀ d ∈ k ++ ['=', '"'] ++ s ++ ['"'], isBlank d = false := by
      intro d hd
      simp only [List.mem_append, List.mem_cons, List.not_mem_nil, or_false] at hd
      rcases hd with ((hd | rfl | rfl) | hd) | rfl
      · exact isBlank_of_isWordChar ((isKey_iff.1 hkey).2 d hd)
      · decide
      · decide
      · exact hsolid.not_blank d hd
      · decide
    have hstop := isBlank_head_propsText fun d hd => (hsub d hd).imp fun _ h => h.1
    rw [propsText_cons_text, words_cons_blank _ (by decide), words_append (by simp) hword hstop,
      List.filterMap_cons, Tag.property?_quoted hkey,
      ih (fun d hd => hk d (List.mem_cons_of_mem _ hd)) hsub]
    rfl

namespace Legible

variable {c : Component}

theorem not_infix_content (h : c.Legible) : ¬ closeMark <:+: c.content := by
  refine Component.not_infix_content (by decide) (by decide) (by decide) (by decide)
    h.name_solid.not_close fun e he => ⟨fun hi => ?_, ?_⟩
  · have := (isKey_iff.1 (h.isKey_of_mem e he)).2 '/' (hi.subset (by decide))
    exact absurd this (by decide)
  · obtain ⟨s, hs, hsolid⟩ := h.solid_of_mem e he
    exact ⟨s, hs, hsolid.not_close⟩

theorem cutAt_content (h : c.Legible) (r : Text) :
    cutAt closeMark (c.content ++ closeMark ++ r) = some (c.content, r) :=
  cutAt_append_pair (by decide) h.not_infix_content r

/-- The tag of a component is one tag, and is closed. -/
theorem tagsOf_write (h : c.Legible) : Body.tagsOf c.write = [(c.content, .bracket)] := by
  rw [write_eq, Body.tagsOf_open_close (h.cutAt_content _)]
  simp [Body.closingOf]

theorem words_content (h : c.Legible) :
    ∃ ws, words c.content = c.name :: ws ∧
      ws.filterMap Tag.property? = c.props.entries.map fun e => (e.1, e.2.requoted) := by
  have hstop := isBlank_head_propsText fun e he => (h.solid_of_mem e he).imp fun _ h => h.1
  refine ⟨words (propsText c.props.entries), ?_,
    filterMap_words_propsText h.isKey_of_mem h.solid_of_mem⟩
  rw [content, List.cons_append, words_cons_blank _ (by decide),
    words_append h.name_ne h.name_solid.not_blank hstop]

theorem words_content_ne_nil (h : c.Legible) : words c.content ≠ [] := by
  obtain ⟨ws, hw, -⟩ := h.words_content
  rw [hw]
  simp

/-- The tag of a component names it again, with its values quoted once more where they hold a
quotation mark. -/
theorem named?_content (h : c.Legible) : Tag.named? c.content = some c.requoted.unplaced := by
  obtain ⟨ws, hw, hp⟩ := h.words_content
  have hprops : OrderedMap.ofList (ws.filterMap Tag.property?) =
      c.props.mapValues Property.requoted := by
    rw [hp]
    exact OrderedMap.ofList_entries (c.props.mapValues Property.requoted)
  rw [Tag.named?, Tag.component?, hw]
  simp only [hprops]
  rfl

/-- A component is what is read from its tag exactly when no value holds a quotation mark. -/
theorem requoted_eq_self_iff (h : c.Legible) : c.requoted = c ↔ c.Unquoted := by
  have hprops : c.requoted = c ↔ c.props.mapValues Property.requoted = c.props :=
    ⟨fun heq => congrArg Component.props heq, fun heq => by rw [requoted, heq]⟩
  rw [hprops, OrderedMap.mapValues_eq_self_iff]
  refine forall₂_congr fun e he => ?_
  obtain ⟨s, hs, -⟩ := h.solid_of_mem e he
  rw [Property.requoted_eq_self_iff hs]
  refine ⟨fun hq t ht => ?_, fun hq => hq s hs⟩
  rw [hs] at ht
  cases ht
  exact hq

/-- The tag of a component names the same component exactly when no value holds a quotation
mark. -/
theorem named?_content_eq_iff (h : c.Legible) :
    Tag.named? c.content = some c.unplaced ↔ c.Unquoted := by
  rw [h.named?_content, Option.some_inj, ← h.requoted_eq_self_iff]
  -- The two differ in their places at most.
  refine ⟨fun heq => ?_, fun heq => by rw [heq]⟩
  have hprops : c.props.mapValues Property.requoted = c.props := congrArg Component.props heq
  rw [requoted, hprops]

end Legible

end Component

end Formdoc
