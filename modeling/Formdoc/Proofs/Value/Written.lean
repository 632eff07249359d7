/-
Values as they are written, read again.

A value of a field is written on one line (`Field.oneLine_write`), even one that
is nested, for its compact text holds no line break (`Json.oneLine_compact`).
Null, truth values, texts and the integers that have digits alone read back
(`Field.read_write`); a negative integer reads back as a text
(`Field.read_write_negative`).  What a line denotes is a value that reads back,
or a binary64 number (`Field.readable_or_float`).

A metadata value reads back if it is a truth value, an integer that has digits
alone, or a text that is quoted when it is written or needs no quotation marks
(`Metadata.read_valueText`).
-/
import Formdoc.Document.Data
import Formdoc.Proofs.Text.Trim
import Formdoc.Proofs.Value.Number

namespace Formdoc

open Text

/-! ### Quotation marks and keywords -/

/-- The text stands between two quotation marks of one kind. -/
def Quoted (s : Text) : Prop :=
  ∃ q r, (q = '"' ∨ q = '\'') ∧ s = q :: r ++ [q]

theorem unquote_of_not_quoted {s : Text} (h : ¬ Quoted s) : unquote s = s := by
  unfold unquote
  split
  · rename_i q c r
    refine if_neg ?_
    rintro ⟨hq, hl⟩
    obtain ⟨t, ht⟩ := List.getLast?_eq_some_iff.1 hl
    exact h ⟨q, t, hq, by rw [List.cons_append, ← ht]⟩
  · rfl

theorem unquote_of_quoted {q : Char} (hq : q = '"' ∨ q = '\'') (s : Text) :
    unquote (q :: s ++ [q]) = s := by
  cases s with
  | nil => simp [unquote, hq]
  | cons c s =>
    have hl : (c :: (s ++ [q])).getLast? = some q := by
      rw [← List.cons_append, List.getLast?_concat]
    have hd : (c :: (s ++ [q])).dropLast = c :: s := by
      rw [← List.cons_append, List.dropLast_concat]
    simp only [List.cons_append, unquote, hl, hd, hq, and_self, if_true]

theorem unquote_quoted (s : Text) : unquote ('"' :: s ++ ['"']) = s :=
  unquote_of_quoted (.inl rfl) s

theorem unquote_of_head {s : Text} {c : Char} (h : s.head? = some c) (hd : c ≠ '"')
    (hs : c ≠ '\'') : unquote s = s := by
  refine unquote_of_not_quoted ?_
  rintro ⟨q, r, hq, rfl⟩
  obtain rfl : q = c := Option.some_inj.1 h
  exact hq.elim hd hs

/-- Taking quotation marks off takes characters away and brings none in. -/
theorem mem_of_mem_unquote {s : Text} {c : Char} (h : c ∈ unquote s) : c ∈ s := by
  unfold unquote at h
  split at h
  · split at h
    · exact List.mem_cons_of_mem _ (List.dropLast_subset _ h)
    · exact h
  · exact h

theorem trim_quoted (s : Text) : trim (' ' :: ('"' :: s ++ ['"'])) = '"' :: s ++ ['"'] := by
  refine trim_blank_cons (fun c hc => ?_) (fun c hc => ?_)
  · obtain rfl : '"' = c := Option.some_inj.1 hc
    decide
  · rw [List.getLast?_concat, Option.some_inj] at hc
    subst hc
    decide

theorem trim_digitsOf (n : Nat) : trim (' ' :: digitsOf n) = digitsOf n :=
  trim_blank_cons
    (fun _ hc => isBlank_of_isDigit (isDigit_of_mem_digitsOf (List.mem_of_head? hc)))
    (fun _ hc => isBlank_of_isDigit (isDigit_of_mem_digitsOf (List.mem_of_getLast? hc)))

namespace Scalar

theorem keyword?_eq_none_iff {s : Text} :
    keyword? s = none ↔ s ≠ "true".toList ∧ s ≠ "false".toList := by
  constructor
  · rintro h
    refine ⟨?_, ?_⟩ <;>
    · rintro rfl
      cases h
  · rintro ⟨ht, hf⟩
    exact (if_neg ht).trans (if_neg hf)

theorem keyword?_of_head {s : Text} {c : Char} (h : s.head? = some c) (ht : c ≠ 't')
    (hf : c ≠ 'f') : keyword? s = none := by
  refine keyword?_eq_none_iff.2 ⟨?_, ?_⟩
  · rintro rfl
    exact ht (Option.some_inj.1 h).symm
  · rintro rfl
    exact hf (Option.some_inj.1 h).symm

theorem read_of_numeral {raw s : Text} {n : Numeral} (hs : unquote (trim raw) = s)
    (hn : Numeral.read? s = some n) : read raw = ofNumeral n := by
  unfold read
  simp only [hs, hn]

theorem read_of_text {raw s : Text} (hs : unquote (trim raw) = s) (hn : Numeral.read? s = none)
    (hk : keyword? s = none) : read raw = .text s := by
  unfold read
  simp only [hs, hn, hk]

end Scalar

/-! ### Keys -/

theorem isKey_iff {s : Text} : isKey s = true ↔ s ≠ [] ∧ ∀ c ∈ s, isWordChar c = true := by
  simp [isKey]

theorem exists_head?_of_isKey {k : Text} (h : isKey k = true) :
    ∃ c, isWordChar c = true ∧ ∀ s, (k ++ s).head? = some c := by
  obtain ⟨hne, hall⟩ := isKey_iff.1 h
  obtain ⟨c, k, rfl⟩ := List.exists_cons_of_ne_nil hne
  exact ⟨c, hall c List.mem_cons_self, fun s => rfl⟩

/-- A line that starts with a key says something. -/
theorem isSilent_of_isKey {k : Text} (h : isKey k = true) (s : Text) :
    isSilent (k ++ s) = false := by
  obtain ⟨c, hc, hhead⟩ := exists_head?_of_isKey h
  refine isSilent_of_head (hhead s) (isBlank_of_isWordChar hc) ?_
  rintro rfl
  exact absurd hc (by decide)

theorem oneLine_of_isKey {s : Text} (h : isKey s = true) : OneLine s := fun c hc =>
  isBreak_of_isBlank_false (isBlank_of_isWordChar ((isKey_iff.1 h).2 c hc))

/-! ### JSON texts are on one line -/

namespace Json

theorem oneLine_escapeChar (c : Char) : OneLine (escapeChar c) := by
  have hdigit : ∀ n < 16, isBreak (hexDigit n) = false := by decide
  unfold escapeChar
  split
  · decide
  · split
    · decide
    · split
      · decide
      · split
        · decide
        · rename_i hn hr
          split
          · decide
          · split
            · decide
            · split
              · decide
              · split
                · rename_i hc
                  refine oneLine_append (s := "\\u00".toList).2 ⟨by decide, oneLine_cons.2
                    ⟨hdigit _ (by omega), oneLine_cons.2 ⟨hdigit _ (by omega), oneLine_nil⟩⟩⟩
                · exact oneLine_cons.2 ⟨by simp [isBreak, hn, hr], oneLine_nil⟩

theorem oneLine_quote (s : Text) : OneLine (quote s) := by
  refine oneLine_cons.2 ⟨by decide, oneLine_append.2 ⟨fun c hc => ?_, by decide⟩⟩
  obtain ⟨d, -, hd⟩ := List.mem_flatMap.1 hc
  exact oneLine_escapeChar d c hd

mutual

/-- The text of a value is on one line, however deep the value is nested. -/
theorem oneLine_compact : ∀ v : Json, OneLine (compact v)
  | null => by decide
  | bool b => by cases b <;> decide
  | int n => oneLine_integerText n
  | float x => oneLine_floatText x
  | text s => oneLine_quote s
  | array items =>
    oneLine_cons.2 ⟨by decide, oneLine_append.2 ⟨oneLine_compactItems items, by decide⟩⟩
  | object fields =>
    oneLine_cons.2 ⟨by decide, oneLine_append.2 ⟨oneLine_compactFields fields, by decide⟩⟩

theorem oneLine_compactItems : ∀ vs : List Json, OneLine (compactItems vs)
  | [] => oneLine_nil
  | [v] => oneLine_compact v
  | v :: w :: vs => oneLine_append.2 ⟨oneLine_compact v,
      oneLine_cons.2 ⟨by decide, oneLine_compactItems (w :: vs)⟩⟩

theorem oneLine_compactFields : ∀ fs : List (Text × Json), OneLine (compactFields fs)
  | [] => oneLine_nil
  | [(k, v)] => oneLine_append.2 ⟨oneLine_quote k, oneLine_cons.2 ⟨by decide, oneLine_compact v⟩⟩
  | (k, v) :: f :: fs => oneLine_append.2 ⟨oneLine_quote k, oneLine_cons.2 ⟨by decide,
      oneLine_append.2 ⟨oneLine_compact v,
        oneLine_cons.2 ⟨by decide, oneLine_compactFields (f :: fs)⟩⟩⟩⟩

end

end Json

/-! ### Values of fields -/

/-- The scalar values of fields that are read back as they are written. -/
def Json.Readable : Json → Prop
  | .null => True
  | .bool _ => True
  | .int n => 0 ≤ n ∧ n ≤ maxInteger
  | .text _ => True
  | _ => False

/-- The scalar values of fields: all but arrays and objects. -/
def Json.IsScalar : Json → Prop
  | .array _ => False
  | .object _ => False
  | _ => True

theorem Json.Readable.isScalar {v : Json} (h : v.Readable) : v.IsScalar := by
  cases v with
  | array items => exact h
  | object fields => exact h
  | _ => trivial

theorem integerText_of_nonneg {n : Int} (h : 0 ≤ n) : integerText n = digitsOf n.toNat := by
  unfold integerText
  rw [if_neg (by omega), show n.natAbs = n.toNat by omega]

theorem integerText_of_neg {n : Int} (h : n < 0) : integerText n = '-' :: digitsOf n.natAbs := by
  unfold integerText
  rw [if_pos h]

namespace Field

theorem oneLine_escapeChar (c : Char) : OneLine (escapeChar c) := by
  unfold escapeChar
  split
  · decide
  · split
    · decide
    · split
      · decide
      · split
        · decide
        · rename_i hn hr
          exact oneLine_cons.2 ⟨by simp [isBreak, hn, hr], oneLine_nil⟩

theorem oneLine_escape (s : Text) : OneLine (escape s) := by
  intro c hc
  obtain ⟨d, -, hd⟩ := List.mem_flatMap.1 hc
  exact oneLine_escapeChar d c hd

theorem oneLine_write (v : Json) : OneLine (write v) := by
  unfold write
  split
  · rename_i s
    exact oneLine_cons.2 ⟨by decide, oneLine_append.2 ⟨oneLine_escape s, by decide⟩⟩
  · exact v.oneLine_compact

theorem keyword?_of_head {s : Text} {c : Char} (h : s.head? = some c) (hn : c ≠ 'n') (ht : c ≠ 't')
    (hf : c ≠ 'f') : keyword? s = none := by
  unfold keyword?
  rw [if_neg, Scalar.keyword?_of_head h ht hf]
  · rfl
  · rintro rfl
    exact hn (Option.some_inj.1 h).symm

theorem readable_of_keyword? {s : Text} {v : Json} (h : keyword? s = some v) : v.Readable := by
  unfold keyword? at h
  split at h
  · cases h
    trivial
  · obtain ⟨b, -, rfl⟩ := Option.map_eq_some_iff.1 h
    trivial

theorem read_of_keyword {raw : Text} {v : Json} (h : keyword? (trim raw) = some v) :
    read raw = v := by
  unfold read
  simp only [h]

theorem read_of_numeral {raw : Text} {n : Numeral} (hk : keyword? (trim raw) = none)
    (hn : Numeral.read? (trim raw) = some n) : read raw = ofNumeral n := by
  unfold read
  simp only [hk, hn]

theorem read_of_text {raw s : Text} (hs : trim raw = s) (hk : keyword? s = none)
    (hn : Numeral.read? s = none) :
    read raw = .text ((quoted? s).elim (unquote s) unescape) := by
  unfold read
  simp only [hs, hk, hn]
  cases quoted? s <;> rfl

theorem quoted?_quoted (s : Text) : quoted? ('"' :: s ++ ['"']) = some s := by
  cases s with
  | nil => rfl
  | cons c s =>
    have hl : (c :: (s ++ ['"'])).getLast? = some '"' := by
      rw [← List.cons_append, List.getLast?_concat]
    have hd : (c :: (s ++ ['"'])).dropLast = c :: s := by
      rw [← List.cons_append, List.dropLast_concat]
    simp only [List.cons_append, quoted?, hl, hd, if_true]

theorem quoted?_of_head {s : Text} {c : Char} (h : s.head? = some c) (hc : c ≠ '"') :
    quoted? s = none := by
  cases s with
  | nil => rfl
  | cons d s =>
    obtain rfl : d = c := Option.some_inj.1 h
    unfold quoted?
    split
    · rename_i heq
      exact absurd (List.cons.inj heq).1 hc
    · rfl

theorem read_text (s : Text) : read (' ' :: write (.text s)) = .text s := by
  -- The quotation mark in front keeps the text from being a keyword or a number.
  have hhead : ('"' :: escape s ++ ['"']).head? = some '"' := rfl
  have hk := keyword?_of_head hhead (by decide) (by decide) (by decide)
  have hn := Numeral.read?_eq_none_of_head hhead (by decide)
  rw [show write (.text s) = '"' :: escape s ++ ['"'] from rfl, read_of_text (trim_quoted _) hk hn,
    quoted?_quoted, Option.elim_some, unescape_escape]

/-- A digit at the front keeps a text from being a keyword. -/
theorem keyword?_digitsOf (n : Nat) : keyword? (digitsOf n) = none := by
  obtain ⟨c, hc, hd⟩ := exists_head?_digitsOf n
  exact keyword?_of_head hc (hd 'n' (by decide)) (hd 't' (by decide)) (hd 'f' (by decide))

theorem read_natural {n : Nat} (h : n ≤ maxInteger) : read (' ' :: digitsOf n) = .int n := by
  rw [read_of_numeral (n := .int n)]
  · rfl
  · rw [trim_digitsOf, keyword?_digitsOf]
  · rw [trim_digitsOf, Numeral.read?_digitsOf h]

/-- A text without blanks at its ends that is no numeral, and starts neither as a keyword nor as a
quotation does, is read as it stands. -/
theorem read_bare {s : Text} {c : Char} (htrim : trim (' ' :: s) = s) (hhead : s.head? = some c)
    (hc : c ∉ ['n', 't', 'f', '"', '\'']) (hn : Numeral.read? s = none) :
    read (' ' :: s) = .text s := by
  simp only [List.mem_cons, List.not_mem_nil, or_false, not_or] at hc
  obtain ⟨hnull, ht, hf, hdouble, hsingle⟩ := hc
  rw [read_of_text htrim (keyword?_of_head hhead hnull ht hf) hn, quoted?_of_head hhead hdouble,
    Option.elim_none, unquote_of_head hhead hdouble hsingle]

/-- A sign makes no numeral: digits behind it are a text. -/
theorem read_negative (n : Nat) : read (' ' :: '-' :: digitsOf n) = .text ('-' :: digitsOf n) := by
  have htrim : trim (' ' :: '-' :: digitsOf n) = '-' :: digitsOf n := by
    refine trim_blank_cons (fun c hc => ?_) (fun c hc => ?_)
    · obtain rfl : '-' = c := Option.some_inj.1 hc
      decide
    · rw [List.getLast?_cons_of_ne_nil (digitsOf_ne_nil n)] at hc
      exact isBlank_of_isDigit (isDigit_of_mem_digitsOf (List.mem_of_getLast? hc))
  -- The number patterns know no sign.
  have hhead : ('-' :: digitsOf n).head? = some '-' := rfl
  exact read_bare htrim hhead (by decide) (Numeral.read?_eq_none_of_head hhead (by decide))

theorem read_write {v : Json} (h : v.Readable) : read (' ' :: write v) = v := by
  cases v with
  | null => rfl
  | bool b => cases b <;> rfl
  | int n =>
    show read (' ' :: integerText n) = _
    rw [integerText_of_nonneg h.1, read_natural (by have := h.2; omega), Int.toNat_of_nonneg h.1]
  | text s => exact read_text s
  | float x => exact h.elim
  | array items => exact h.elim
  | object fields => exact h.elim

/-- A negative integer reads back as a text. -/
theorem read_write_negative {n : Int} (h : n < 0) :
    read (' ' :: write (.int n)) = .text (integerText n) := by
  show read (' ' :: integerText n) = _
  rw [integerText_of_neg h, read_negative]

/-- A line denotes a value that reads back, or a binary64 number. -/
theorem readable_or_float (raw : Text) : (read raw).Readable ∨ ∃ x, read raw = .float x := by
  cases hk : keyword? (trim raw) with
  | some v =>
    rw [read_of_keyword hk]
    exact .inl (readable_of_keyword? hk)
  | none =>
    cases hn : Numeral.read? (trim raw) with
    | none =>
      rw [read_of_text rfl hk hn]
      exact .inl trivial
    | some n =>
      rw [read_of_numeral hk hn]
      cases n with
      | int n =>
        have := Numeral.le_maxInteger_of_read? hn
        exact .inl ⟨Int.natCast_nonneg n, Int.ofNat_le.2 this⟩
      | float x =>
        -- A number past the greatest one is null.
        show (if x.isFinite then Json.float x else .null).Readable ∨
          ∃ y, (if x.isFinite then Json.float x else .null) = .float y
        split
        · exact .inr ⟨x, rfl⟩
        · exact .inl trivial

/-- A value that is read from a line reads back, if it is no binary64 number. -/
theorem readable_read {raw : Text} (h : ∀ x, read raw ≠ .float x) : (read raw).Readable :=
  (readable_or_float raw).resolve_right fun ⟨x, hx⟩ => h x hx

/-- No value that is read from a line is an array or an object. -/
theorem isScalar_read (raw : Text) : (read raw).IsScalar := by
  rcases readable_or_float raw with h | ⟨x, hx⟩
  · exact h.isScalar
  · rw [hx]
    trivial

end Field

/-! ### Values of metadata -/

/-- The metadata values that are read back as they are written. -/
def Scalar.Readable : Scalar → Prop
  | .bool _ => True
  | .int n => 0 ≤ n ∧ n ≤ maxInteger
  | .float _ => False
  | .text s => OneLine s ∧ (':' ∈ s ∨ '#' ∈ s ∨
      (trim s = s ∧ ¬ Quoted s ∧ isDigits s = false ∧
        (∀ a b, s = a ++ '.' :: b → isDigits a = true → isDigits b = false) ∧
        s ≠ "true".toList ∧ s ≠ "false".toList))

/-- A metadata value that is written on one line. -/
def Scalar.OneLine : Scalar → Prop
  | .text s => Text.OneLine s
  | _ => True

namespace Metadata

theorem needsQuotes_iff {s : Text} : needsQuotes s = true ↔ ':' ∈ s ∨ '#' ∈ s := by
  simp [needsQuotes]

theorem read_text_of_mem {s : Text} {c : Char} (hc : c ∈ s) (h : c = ':' ∨ c = '#') :
    Scalar.read (' ' :: ('"' :: s ++ ['"'])) = .text s := by
  have hs : unquote (trim (' ' :: ('"' :: s ++ ['"']))) = s := by rw [trim_quoted, unquote_quoted]
  -- Neither a numeral nor a keyword holds such a character.
  refine Scalar.read_of_text hs (Numeral.read?_eq_none_of_mem hc ?_ ?_)
    (Scalar.keyword?_eq_none_iff.2 ⟨?_, ?_⟩)
  · rcases h with rfl | rfl <;> decide
  · rcases h with rfl | rfl <;> decide
  · rintro rfl
    rcases h with rfl | rfl <;> exact absurd hc (by decide)
  · rintro rfl
    rcases h with rfl | rfl <;> exact absurd hc (by decide)

/-- A text reads back if it is quoted when it is written, or needs no quotation marks. -/
theorem read_valueText_text {s : Text} (h : ':' ∈ s ∨ '#' ∈ s ∨ (trim s = s ∧ ¬ Quoted s ∧
      Numeral.read? s = none ∧ Scalar.keyword? s = none)) :
    Scalar.read (' ' :: valueText (.text s)) = .text s := by
  by_cases hq : needsQuotes s = true
  · rw [valueText, if_pos hq]
    rcases needsQuotes_iff.1 hq with hc | hc
    · exact read_text_of_mem hc (.inl rfl)
    · exact read_text_of_mem hc (.inr rfl)
  · rw [valueText, if_neg hq]
    rw [needsQuotes_iff, not_or] at hq
    obtain ⟨ht, hn, hd, hkey⟩ := (h.resolve_left hq.1).resolve_left hq.2
    refine Scalar.read_of_text ?_ hd hkey
    rw [show ' ' :: s = [' '] ++ s from rfl, trim_blank_append s (by decide), ht,
      unquote_of_not_quoted hn]

theorem read_valueText {v : Scalar} (h : v.Readable) : Scalar.read (' ' :: valueText v) = v := by
  cases v with
  | bool b => cases b <;> decide +kernel
  | float x => exact h.elim
  | int n =>
    show Scalar.read (' ' :: integerText n) = _
    obtain ⟨hn, hmax⟩ := h
    obtain ⟨c, hc, hd⟩ := exists_head?_digitsOf n.toNat
    have hu : unquote (trim (' ' :: digitsOf n.toNat)) = digitsOf n.toNat := by
      rw [trim_digitsOf, unquote_of_head hc (hd '"' (by decide)) (hd '\'' (by decide))]
    rw [integerText_of_nonneg hn,
      Scalar.read_of_numeral hu (Numeral.read?_digitsOf (by omega))]
    simp only [Scalar.ofNumeral, Int.toNat_of_nonneg hn]
  | text s =>
    obtain ⟨-, h⟩ := h
    refine read_valueText_text (h.imp_right (Or.imp_right ?_))
    rintro ⟨ht, hn, hd, hp, hkey⟩
    exact ⟨ht, hn, Numeral.read?_eq_none_iff.2 ⟨hd, hp⟩, Scalar.keyword?_eq_none_iff.2 hkey⟩

theorem oneLine_valueText {v : Scalar} (h : v.OneLine) : Text.OneLine (valueText v) := by
  cases v with
  | text s =>
    have hs : OneLine s := h
    show OneLine (if needsQuotes s then '"' :: s ++ ['"'] else s)
    split
    · exact oneLine_cons.2 ⟨by decide, oneLine_append.2 ⟨hs, by decide⟩⟩
    · exact hs
  | int n => exact oneLine_integerText n
  | float x => exact Binary64.oneLine_markedText x
  | bool b => cases b <;> decide

/-- A value that is read from one line is on one line. -/
theorem oneLine_read {raw : Text} (h : Text.OneLine raw) : (Scalar.read raw).OneLine := by
  unfold Scalar.read
  simp only
  split
  · rename_i n _
    cases n <;> trivial
  · split
    · trivial
    · exact h.subset fun c hc => (infix_trim raw).subset (mem_of_mem_unquote hc)

end Metadata

end Formdoc
