/-
Escapes of icons, decoded in one pass and in two.

`decodeOnce` decodes the escapes of a text in one pass from left to right, so
that a character that an escape stands for is never part of another one.
`decode` decodes the long escapes first and the short ones in what results.
There a character that a long escape stands for may be part of a short one, as
in `not_forall_decode_eq_decodeOnce`.

That is the only difference.  `parts` cuts a text into its long escapes and its
other characters, each with the character that it denotes, and these are
`Separate` if every short escape in what they denote is written as it stands.
Both ways to decode give the same exactly then (`decode_eq_decodeOnce_iff`);
otherwise two passes give a shorter text (`decodeDenoted_spec`).
-/
import Formdoc.Palette.Escape
import Mathlib.Data.List.Infix

namespace Formdoc.Icon

open Text

variable {letter : Char} {count : Nat}

/-! ### Escapes -/

/-- The character that an escape at the front of a text stands for. -/
def charAt? (letter : Char) (count : Nat) : Text → Option Char
  | [] => none
  | c :: s =>
    ((if c = '\\' then after? [letter] s else none).bind (hexPrefix? count)).bind
      fun p => charOf? p.1

theorem hexPrefix?_eq_some_iff {s r : Text} {n : Nat} :
    hexPrefix? count s = some (n, r) ↔
      ∃ ds, s = ds ++ r ∧ ds.length = count ∧ hexNumber? ds = some n := by
  unfold hexPrefix?
  simp only
  constructor
  · intro h
    split at h
    · rename_i hlen
      obtain ⟨m, hm, he⟩ := Option.map_eq_some_iff.1 h
      cases he
      exact ⟨s.take count, (List.take_append_drop count s).symm, hlen, hm⟩
    · cases h
  · rintro ⟨ds, rfl, rfl, hn⟩
    rw [List.take_left, List.drop_left, if_pos rfl, hn, Option.map_some]

theorem backslash_not_mem_of_hexNumber? {ds : Text} {n : Nat} (h : hexNumber? ds = some n) :
    '\\' ∉ ds := by
  have hfold (m : Nat) (h : ds.foldlM (fun n c => (hexValue? c).map (16 * n + ·)) m = some n) :
      '\\' ∉ ds := by
    clear * - h
    induction ds generalizing m with
    | nil => exact List.not_mem_nil
    | cons c ds ih =>
      rw [List.foldlM_cons] at h
      obtain ⟨k, hk, hrest⟩ := Option.bind_eq_some_iff.1 h
      rw [List.mem_cons, not_or]
      refine ⟨?_, ih k hrest⟩
      rintro rfl
      cases hk
  exact hfold 0 h

theorem charAt?_eq_some_iff {s : Text} {d : Char} :
    charAt? letter count s = some d ↔
      ∃ ds n r, s = '\\' :: letter :: (ds ++ r) ∧ ds.length = count ∧ hexNumber? ds = some n ∧
        charOf? n = some d := by
  cases s with
  | nil => simp [charAt?]
  | cons c s =>
    unfold charAt?
    by_cases hc : c = '\\'
    · subst hc
      simp only [if_true, Option.bind_eq_some_iff, Prod.exists, after?_eq_some_iff,
        hexPrefix?_eq_some_iff, List.cons.injEq, true_and]
      constructor
      · rintro ⟨n, r, ⟨t, rfl, ds, rfl, hlen, hn⟩, hd⟩
        exact ⟨ds, n, r, rfl, hlen, hn, hd⟩
      · rintro ⟨ds, n, r, rfl, hlen, hn, hd⟩
        exact ⟨n, r, ⟨ds ++ r, rfl, ds, rfl, hlen, hn⟩, hd⟩
    · simp [hc]

theorem decodeKind_nil : decodeKind letter count [] = [] := by
  rw [decodeKind]

/-- No escape starts without a backslash. -/
theorem decodeKind_append {a : Text} (h : '\\' ∉ a) (s : Text) :
    decodeKind letter count (a ++ s) = a ++ decodeKind letter count s := by
  induction a with
  | nil => rfl
  | cons c a ih =>
    rw [List.mem_cons, not_or] at h
    rw [List.cons_append, decodeKind, if_neg (Ne.symm h.1)]
    simp only [Option.bind_none]
    rw [ih h.2, List.cons_append]

/-- An escape is decoded at the front, and any other character stays. An escape of no character
may be left as it is one character after another, since no escape starts within it. -/
theorem decodeKind_cons (hletter : letter ≠ '\\') (c : Char) (s : Text) :
    decodeKind letter count (c :: s) =
      match charAt? letter count (c :: s) with
      | some d => d :: decodeKind letter count (s.drop (count + 1))
      | none => c :: decodeKind letter count s := by
  rw [decodeKind, charAt?]
  cases hn : (if c = '\\' then after? [letter] s else none).bind (hexPrefix? count) with
  | none => rfl
  | some p =>
    obtain ⟨n, r⟩ := p
    simp only [Option.bind_some]
    cases charOf? n with
    | some d => rfl
    | none =>
      simp only
      obtain ⟨t, ht, hr⟩ := Option.bind_eq_some_iff.1 hn
      obtain ⟨ds, rfl, hlen, hds⟩ := hexPrefix?_eq_some_iff.1 hr
      have hs : s = letter :: (ds ++ r) := by
        split at ht
        · exact after?_eq_some_iff.1 ht
        · cases ht
      have htake : '\\' ∉ s.take (count + 1) := by
        rw [hs, List.take_succ_cons, ← hlen, List.take_left, List.mem_cons, not_or]
        exact ⟨hletter.symm, backslash_not_mem_of_hexNumber? hds⟩
      rw [List.cons_append, ← decodeKind_append htake, List.take_append_drop]

/-! ### One pass -/

/-- The text with its escapes decoded in one pass from left to right. -/
def decodeOnce : Text → Text
  | [] => []
  | c :: s =>
    match charAt? 'U' 8 (c :: s), charAt? 'u' 4 (c :: s) with
    | some d, _ => d :: decodeOnce (s.drop 9)
    | none, some d => d :: decodeOnce (s.drop 5)
    | none, none => c :: decodeOnce s
termination_by s => s.length
decreasing_by
  all_goals simp only [List.length_drop, List.length_cons]; omega

/-- A stretch of a text and the character that it denotes. -/
structure Part where
  written : Text
  denoted : Char
deriving DecidableEq, Repr

/-- A character that stands for itself. -/
def Part.plain (c : Char) : Part := ⟨[c], c⟩

/-- The part is a character that stands for itself. -/
def Part.isPlain (p : Part) : Bool :=
  p.written = [p.denoted]

/-- The long escapes of a text and its other characters. -/
def parts : Text → List Part
  | [] => []
  | c :: s =>
    match charAt? 'U' 8 (c :: s) with
    | some d => ⟨(c :: s).take 10, d⟩ :: parts (s.drop 9)
    | none => .plain c :: parts s
termination_by s => s.length
decreasing_by
  all_goals simp only [List.length_drop, List.length_cons]; omega

theorem flatMap_written_parts (s : Text) : (parts s).flatMap Part.written = s := by
  fun_induction parts s with
  | case1 => rfl
  | case2 c s d _ ih =>
    rw [List.flatMap_cons, ih]
    exact List.take_append_drop 10 (c :: s)
  | case3 c s _ ih =>
    rw [List.flatMap_cons, ih]
    rfl

theorem map_denoted_parts (s : Text) : (parts s).map Part.denoted = decodeKind 'U' 8 s := by
  fun_induction parts s with
  | case1 => exact decodeKind_nil.symm
  | case2 c s d hd ih =>
    rw [decodeKind_cons (by decide), hd]
    simp only [List.map_cons, ih]
  | case3 c s hnone ih =>
    rw [decodeKind_cons (by decide), hnone]
    simp only [List.map_cons, ih, Part.plain]

theorem charAt?_of_ne {c : Char} (h : c ≠ '\\') (s : Text) :
    charAt? letter count (c :: s) = none := by
  rw [charAt?, if_neg h]
  rfl

/-- Without a backslash every character stands for itself. -/
theorem parts_append {a : Text} (h : '\\' ∉ a) (s : Text) :
    parts (a ++ s) = a.map Part.plain ++ parts s := by
  induction a with
  | nil => rfl
  | cons c a ih =>
    rw [List.mem_cons, not_or] at h
    rw [List.cons_append, parts, charAt?_of_ne (Ne.symm h.1)]
    simp only
    rw [ih h.2, List.map_cons, List.cons_append]

/-- The character that a short escape at the front of some parts stands for, if it is written as
it stands. -/
def plainAt? (ps : List Part) : Option Char :=
  if (ps.take 6).all Part.isPlain then charAt? 'u' 4 (ps.map Part.denoted) else none

/-- What parts denote, with the short escapes decoded that are written as they stand. -/
def decodePlain : List Part → Text
  | [] => []
  | p :: ps =>
    match plainAt? (p :: ps) with
    | some d => d :: decodePlain (ps.drop 5)
    | none => p.denoted :: decodePlain ps
termination_by ps => ps.length
decreasing_by
  all_goals simp only [List.length_drop, List.length_cons]; omega

theorem plainAt?_of_charAt?_eq_none {ps : List Part}
    (h : charAt? 'u' 4 (ps.map Part.denoted) = none) : plainAt? ps = none := by
  rw [plainAt?, h, ite_self]

theorem plainAt?_of_isPlain_false {p : Part} (h : p.isPlain = false) (ps : List Part) :
    plainAt? (p :: ps) = none :=
  if_neg (by simp [h])

/-- A short escape that is written as it stands among parts stands in their text. -/
theorem charAt?_of_plainAt? {s : Text} {d : Char} (h : plainAt? (parts s) = some d) :
    charAt? 'u' 4 s = some d := by
  unfold plainAt? at h
  split at h
  · rename_i hplain
    obtain ⟨ds, n, r, hparts, hlen, hn, hd⟩ := charAt?_eq_some_iff.1 h
    have hwritten : ((parts s).take 6).flatMap Part.written =
        ((parts s).map Part.denoted).take 6 := by
      rw [← List.map_take, ← List.flatMap_singleton' (((parts s).take 6).map Part.denoted),
        List.flatMap_map]
      refine List.flatMap_congr fun p hp => ?_
      simpa [Part.isPlain] using List.all_eq_true.1 hplain p hp
    have htake : ((parts s).map Part.denoted).take 6 = '\\' :: 'u' :: ds := by
      rw [hparts, List.take_succ_cons, List.take_succ_cons, ← hlen, List.take_left]
    refine charAt?_eq_some_iff.2 ⟨ds, n, ((parts s).drop 6).flatMap Part.written, ?_, hlen, hn, hd⟩
    conv_lhs => rw [← flatMap_written_parts s, ← List.take_append_drop 6 (parts s)]
    rw [List.flatMap_append, hwritten, htake]
    rfl
  · cases h

theorem plainAt?_map_plain {a : Text} {d : Char} (hlen : a.length = 6) (ps : List Part)
    (h : charAt? 'u' 4 (a ++ ps.map Part.denoted) = some d) :
    plainAt? (a.map Part.plain ++ ps) = some d := by
  have htake : (a.map Part.plain ++ ps).take 6 = a.map Part.plain :=
    List.take_left' (by rw [List.length_map, hlen])
  have hdenoted : (a.map Part.plain ++ ps).map Part.denoted = a ++ ps.map Part.denoted := by
    rw [List.map_append, List.map_map]
    exact congrArg (· ++ _) (List.map_id a)
  have hall : (a.map Part.plain).all Part.isPlain = true := by
    simp [Part.isPlain, Part.plain]
  rw [plainAt?, htake, if_pos hall, hdenoted, h]

/-- One pass decodes the long escapes, and the short ones that are written as they stand. -/
theorem decodeOnce_eq (s : Text) : decodeOnce s = decodePlain (parts s) := by
  fun_induction decodeOnce s with
  | case1 => rw [parts, decodePlain]
  | case2 c s d hlong ih =>
    obtain ⟨ds, n, r, hs, hlen, -, -⟩ := charAt?_eq_some_iff.1 hlong
    have hplain : Part.isPlain ⟨(c :: s).take 10, d⟩ = false := by
      have hlength : ((c :: s).take 10).length = 10 := by
        rw [hs]
        simp [hlen]
      simp only [Part.isPlain, decide_eq_false_iff_not]
      intro h
      rw [h] at hlength
      cases hlength
    rw [parts, hlong]
    simp only
    rw [decodePlain, plainAt?_of_isPlain_false hplain, ih]
  | case3 c s d hshort hlong ih =>
    obtain ⟨ds, n, r, hs, hlen, hn, hd⟩ := charAt?_eq_some_iff.1 hshort
    obtain ⟨rfl, rfl⟩ := List.cons.inj hs
    have hrest : parts ('u' :: (ds ++ r)) = ('u' :: ds).map Part.plain ++ parts r :=
      parts_append (a := 'u' :: ds) (by simpa using backslash_not_mem_of_hexNumber? hn) r
    have hplain : plainAt? (.plain '\\' :: (('u' :: ds).map Part.plain ++ parts r)) = some d :=
      plainAt?_map_plain (a := '\\' :: 'u' :: ds) (by simp [hlen]) _
        (charAt?_eq_some_iff.2 ⟨ds, n, _, rfl, hlen, hn, hd⟩)
    have hdrop : (('u' :: ds).map Part.plain ++ parts r).drop 5 = parts r :=
      List.drop_left' (by simp [hlen])
    rw [parts, hlong]
    simp only
    rw [hrest, decodePlain, hplain]
    simp only
    rw [hdrop, ih, List.drop_succ_cons, List.drop_left' hlen]
  | case4 c s hshort hlong ih =>
    have hparts : parts (c :: s) = .plain c :: parts s := by
      rw [parts, hlong]
    have hnone : plainAt? (.plain c :: parts s) = none := by
      cases h : plainAt? (.plain c :: parts s) with
      | none => rfl
      | some d =>
        rw [← hparts] at h
        rw [charAt?_of_plainAt? h] at hshort
        cases hshort
    rw [hparts, decodePlain, hnone, ih]
    rfl

/-! ### Two passes -/

/-- Each short escape in what the parts denote is written as it stands. -/
def Separate (ps : List Part) : Prop :=
  ∀ rest, rest <:+ ps → (charAt? 'u' 4 (rest.map Part.denoted)).isSome = true →
    (rest.take 6).all Part.isPlain = true

theorem separate_cons {p : Part} {ps : List Part} :
    Separate (p :: ps) ↔
      ((charAt? 'u' 4 ((p :: ps).map Part.denoted)).isSome = true →
        ((p :: ps).take 6).all Part.isPlain = true) ∧ Separate ps := by
  unfold Separate
  constructor
  · intro h
    exact ⟨h _ List.suffix_rfl, fun rest hrest => h rest (hrest.trans (List.suffix_cons p ps))⟩
  · rintro ⟨hhead, hps⟩ rest hrest
    rcases List.suffix_cons_iff.1 hrest with rfl | hrest
    · exact hhead
    · exact hps rest hrest

theorem separate_append {qs : List Part} (h : '\\' ∉ qs.map Part.denoted) (ps : List Part) :
    Separate (qs ++ ps) ↔ Separate ps := by
  induction qs with
  | nil => rfl
  | cons q qs ih =>
    rw [List.map_cons, List.mem_cons, not_or] at h
    rw [List.cons_append, separate_cons, ih h.2, List.map_cons, charAt?_of_ne (Ne.symm h.1)]
    simp

theorem decodePlain_append {qs : List Part} (h : '\\' ∉ qs.map Part.denoted) (ps : List Part) :
    decodePlain (qs ++ ps) = qs.map Part.denoted ++ decodePlain ps := by
  induction qs with
  | nil => rfl
  | cons q qs ih =>
    rw [List.map_cons, List.mem_cons, not_or] at h
    have hnone : plainAt? (q :: (qs ++ ps)) = none :=
      plainAt?_of_charAt?_eq_none (charAt?_of_ne (Ne.symm h.1) _)
    rw [List.cons_append, decodePlain, hnone]
    simp only
    rw [ih h.2, List.map_cons, List.cons_append]

/-- What parts denote, with all short escapes decoded. -/
def decodeDenoted (ps : List Part) : Text :=
  decodeKind 'u' 4 (ps.map Part.denoted)

theorem decodeDenoted_cons (p : Part) (ps : List Part) :
    decodeDenoted (p :: ps) =
      match charAt? 'u' 4 ((p :: ps).map Part.denoted) with
      | some d => d :: decodeDenoted (ps.drop 5)
      | none => p.denoted :: decodeDenoted ps := by
  unfold decodeDenoted
  rw [List.map_cons, decodeKind_cons (by decide), List.map_drop]

/-- No escape starts within another one. -/
theorem exists_append_of_charAt? {p : Part} {ps : List Part} {d : Char}
    (h : charAt? 'u' 4 ((p :: ps).map Part.denoted) = some d) :
    ∃ qs rest, ps = qs ++ rest ∧ qs.length = 5 ∧ '\\' ∉ qs.map Part.denoted := by
  obtain ⟨ds, n, r, hs, hds, hn, -⟩ := charAt?_eq_some_iff.1 h
  have hdenoted : (ps.take 5).map Part.denoted = 'u' :: ds := by
    rw [List.map_take, (List.cons.inj hs).2, List.take_succ_cons, ← hds, List.take_left]
  refine ⟨ps.take 5, ps.drop 5, (List.take_append_drop 5 ps).symm, ?_, ?_⟩
  · rw [← List.length_map Part.denoted, hdenoted, List.length_cons, hds]
  · rw [hdenoted]
    simpa using backslash_not_mem_of_hexNumber? hn

theorem separate_nil : Separate [] := by
  intro rest hrest
  rw [List.suffix_nil.1 hrest]
  exact fun h => absurd h Bool.false_ne_true

/-- Two passes decode every short escape in what the parts denote. Each that is not written as it
stands makes the text shorter than one pass does. -/
theorem decodeDenoted_spec (ps : List Part) :
    (Separate ps → decodeDenoted ps = decodePlain ps) ∧
      (¬ Separate ps → (decodeDenoted ps).length < (decodePlain ps).length) := by
  induction hk : ps.length using Nat.strongRecOn generalizing ps with
  | _ k ih =>
    cases ps with
    | nil =>
      refine ⟨fun _ => ?_, fun h => absurd separate_nil h⟩
      rw [decodePlain]
      exact decodeKind_nil
    | cons p ps =>
      rw [List.length_cons] at hk
      rw [separate_cons, decodeDenoted_cons, decodePlain]
      cases hchar : charAt? 'u' 4 ((p :: ps).map Part.denoted) with
      | none =>
        have hat : plainAt? (p :: ps) = none := plainAt?_of_charAt?_eq_none hchar
        obtain ⟨hsame, hshorter⟩ := ih ps.length (by omega) ps rfl
        simp only [hat, Option.isSome_none, Bool.false_eq_true, false_imp_iff, true_and,
          List.cons.injEq, List.length_cons, Nat.add_lt_add_iff_right]
        exact ⟨hsame, hshorter⟩
      | some d =>
        obtain ⟨qs, rest, rfl, hqs, hinner⟩ := exists_append_of_charAt? hchar
        rw [List.length_append] at hk
        obtain ⟨hsame, hshorter⟩ := ih rest.length (by omega) rest rfl
        rw [separate_append hinner, List.drop_left' hqs]
        cases hplain : ((p :: (qs ++ rest)).take 6).all Part.isPlain with
        | true =>
          have hat : plainAt? (p :: (qs ++ rest)) = some d := by
            rw [plainAt?, if_pos hplain, hchar]
          simp only [hat, Option.isSome_some, true_imp_iff, true_and, List.cons.injEq,
            List.length_cons, Nat.add_lt_add_iff_right]
          exact ⟨hsame, hshorter⟩
        | false =>
          have hat : plainAt? (p :: (qs ++ rest)) = none :=
            if_neg (by rw [hplain]; exact Bool.false_ne_true)
          have hle : (decodeDenoted rest).length ≤ (decodePlain rest).length := by
            by_cases h : Separate rest
            · rw [hsame h]
            · exact Nat.le_of_lt (hshorter h)
          refine ⟨fun h => absurd (h.1 rfl) Bool.false_ne_true, fun _ => ?_⟩
          simp only [hat]
          rw [decodePlain_append hinner]
          simp only [List.length_cons, List.length_append, List.length_map, hqs]
          omega

/-- Two passes give the text with the escapes decoded from left to right exactly if no long escape
gives a character of a short one: wherever the parts of the text denote a short escape, they are
its characters as they stand. -/
theorem decode_eq_decodeOnce_iff (s : Text) : decode s = decodeOnce s ↔ Separate (parts s) := by
  obtain ⟨hsame, hshorter⟩ := decodeDenoted_spec (parts s)
  rw [decodeDenoted, map_denoted_parts, ← decodeOnce_eq] at hsame hshorter
  constructor
  · intro h
    by_contra hn
    exact absurd (congrArg List.length h) (Nat.ne_of_lt (hshorter hn))
  · exact hsame

/-- An icon may denote another text than its escapes do, one after another. -/
theorem not_forall_decode_eq_decodeOnce : ¬ ∀ s, decode s = decodeOnce s := by
  intro h
  exact absurd (h "\\U0000005Cu0041".toList) (by decide +kernel)

end Formdoc.Icon
