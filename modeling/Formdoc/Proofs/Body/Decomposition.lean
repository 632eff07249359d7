/-
Tokens as the one decomposition of a body.

Seen from outside a token is a `Slice`: it is taken for text or for a tag, it is
written in some way, and it says something.  `Decomposes s ts` says which slices
may stand one behind another in a body: joined they are the body, and each of
them fits what follows it.  Text holds no opening mark and is never followed by
more text; a tag ends with its first closing mark, and the bracket behind it if
there is one, or runs to the end of the body.

Each body has exactly one decomposition, its tokens (`tokens_unique`).  That a
tag has no end can be told from the way it is written, and is so for the last
token at most (`eq_nil_of_isUnterminated`).
-/
import Formdoc.Proofs.Body.Blocks

namespace Formdoc

open Text

/-! ### Slices -/

/-- What a stretch of a body is taken for. -/
inductive SliceKind where
  | text
  | tag
deriving DecidableEq, Repr

/-- A stretch of a body: what it is taken for, what it says, and how it is written. -/
structure Slice where
  kind : SliceKind
  value : Text
  raw : Text
deriving DecidableEq, Repr

/-- The token as it is seen from outside. -/
def Token.slice : Token → Slice
  | t@(text _) => ⟨.text, t.value, t.raw⟩
  | t@(tag _ _) => ⟨.tag, t.value, t.raw⟩

namespace Slice

/-- The slice is a tag in which no closing mark is written. -/
def isUnterminated (t : Slice) : Bool :=
  t.kind == .tag && !occursIn closeMark t.raw

/-- The slice says what is written, opens no tag, and is not followed by more text. -/
structure IsText (t : Slice) (rest : List Slice) : Prop where
  value_eq : t.value = t.raw
  not_open : ¬ openMark <:+: t.raw
  apart : ∀ u, rest.head? = some u → u.kind = .tag

/-- The slice is an opening mark, a content without a closing mark, and an end: the closing mark,
with the bracket behind it exactly if there is one, or the end of the body. -/
def IsTag (t : Slice) (rest : List Slice) : Prop :=
  ∃ content, t.value = trim content ∧ ¬ closeMark <:+: content ∧
    (t.raw = openMark ++ content ++ closeMark ++ [']'] ∨
      (t.raw = openMark ++ content ++ closeMark ∧ (rest.flatMap raw).head? ≠ some ']') ∨
      (t.raw = openMark ++ content ∧ rest = []))

/-- The slice may stand in front of the given ones. -/
def Fits (t : Slice) (rest : List Slice) : Prop :=
  t.raw ≠ [] ∧
    match t.kind with
    | .text => t.IsText rest
    | .tag => t.IsTag rest

end Slice

namespace Body

/-- The slices, one behind another, are a decomposition of the text. -/
structure Decomposes (s : Text) (ts : List Slice) : Prop where
  join : ts.flatMap Slice.raw = s
  fits : ∀ front t rest, ts = front ++ t :: rest → t.Fits rest

theorem decomposes_nil_iff {s : Text} : Decomposes s [] ↔ s = [] :=
  ⟨fun h => h.join.symm, fun h => ⟨h.symm, by simp⟩⟩

theorem decomposes_cons_iff {s : Text} {t : Slice} {ts : List Slice} :
    Decomposes s (t :: ts) ↔ t.Fits ts ∧ ∃ r, s = t.raw ++ r ∧ Decomposes r ts := by
  constructor
  · intro h
    refine ⟨h.fits [] t ts rfl, ts.flatMap Slice.raw, h.join.symm, rfl, ?_⟩
    intro front u rest hts
    exact h.fits (t :: front) u rest (by rw [hts]; rfl)
  · rintro ⟨ht, r, rfl, hr⟩
    refine ⟨by rw [List.flatMap_cons, hr.join], ?_⟩
    intro front u rest hts
    cases front with
    | nil =>
      obtain ⟨rfl, rfl⟩ := List.cons.inj hts
      exact ht
    | cons v front => exact hr.fits front u rest (List.cons.inj hts).2

/-! ### Tokens are a decomposition -/

theorem raw_slice (t : Token) : t.slice.raw = t.raw := by
  cases t <;> rfl

theorem flatMap_raw_slices (s : Text) : ((tokens s).map Token.slice).flatMap Slice.raw = s := by
  rw [List.flatMap_map, show (fun t => (Token.slice t).raw) = Token.raw from funext raw_slice,
    flatten_raw_tokens]

/-- A tag that has been read fits what is made of the rest. -/
theorem fits_readTag (s : Text) :
    (Token.readTag s).1.slice.Fits ((tokens (Token.readTag s).2).map Token.slice) := by
  cases h : cutAt closeMark s with
  | none =>
    have hclose := cutAt_eq_none_iff.1 h
    rw [readTag_missing hclose, tokens]
    refine ⟨by simp [Token.slice, Token.raw, openMark], s, rfl, hclose, ?_⟩
    exact .inr (.inr ⟨by simp [Token.slice, Token.value, Token.raw, Closing.text], rfl⟩)
  | some p =>
    obtain ⟨content, r⟩ := p
    have hclose := not_infix_of_cutAt (by decide) h
    rw [readTag_of_cutAt h]
    refine ⟨by simp [Token.slice, Token.raw, openMark], content, rfl, hclose, ?_⟩
    rw [flatMap_raw_slices]
    unfold closingOf
    split
    · exact .inl (by simp [Token.slice, Token.value, Token.raw, Closing.text])
    · rename_i hr
      refine .inr (.inl ⟨rfl, fun hhead => ?_⟩)
      obtain ⟨r', hr'⟩ := List.head?_eq_some_iff.1 hhead
      exact hr r' hr'

/-- What follows a run of text starts with a tag, or is nothing. -/
theorem readRun_snd (s : Text) : (Token.readRun s).2 = [] ∨ openMark <+: (Token.readRun s).2 := by
  unfold Token.readRun
  split
  · exact .inl rfl
  · exact .inr (List.prefix_append ..)

theorem kind_head?_slices {s : Text} (h : s = [] ∨ openMark <+: s) :
    ∀ u, ((tokens s).map Token.slice).head? = some u → u.kind = .tag := by
  intro u hu
  rcases h with rfl | ⟨r, rfl⟩
  · rw [tokens] at hu
    cases hu
  · rw [tokens_open, List.map_cons, List.head?_cons, Option.some_inj] at hu
    subst hu
    unfold Token.readTag
    split <;> rfl

theorem decomposes_tokens (s : Text) : Decomposes s ((tokens s).map Token.slice) := by
  fun_induction tokens s with
  | case1 => exact decomposes_nil_iff.2 rfl
  | case2 c r r' h ih =>
    refine decomposes_cons_iff.2 ⟨fits_readTag r', (Token.readTag r').2, ?_, ih⟩
    rw [raw_slice, Token.append_readTag, after?_eq_some_iff.1 h]
  | case3 c r h ih =>
    refine decomposes_cons_iff.2
      ⟨⟨by simp [Token.slice, Token.raw], rfl, ?_, ?_⟩, (Token.readRun r).2, ?_, ih⟩
    · exact Token.not_infix_readRun (after?_eq_none_iff.1 h)
    · exact kind_head?_slices (readRun_snd r)
    · rw [raw_slice, Token.raw, List.cons_append, Token.append_readRun]

/-! ### There is no other decomposition -/

/-- A tag in a decomposition is the one that is read there. -/
theorem eq_readTag_of_isTag {s r : Text} {t : Slice} {ts : List Slice} (ht : t.IsTag ts)
    (hk : t.kind = .tag) (hs : openMark ++ s = t.raw ++ r) (hr : Decomposes r ts) :
    t = (Token.readTag s).1.slice ∧ r = (Token.readTag s).2 := by
  obtain ⟨kind, value, raw⟩ := t
  obtain ⟨content, hv, hc, hraw | ⟨hraw, hnext⟩ | ⟨hraw, hlast⟩⟩ := ht
  all_goals
    obtain rfl : kind = .tag := hk
    obtain rfl : value = trim content := hv
    simp only at hraw hs
    subst hraw
  · have hcut : cutAt closeMark s = some (content, ']' :: r) := by
      have hform : s = content ++ closeMark ++ (']' :: r) := by simpa using hs
      rw [hform, closeMark, cutAt_append_pair (by decide) hc]
    rw [readTag_of_cutAt hcut]
    exact ⟨by simp [closingOf, Token.slice, Token.value, Token.raw, Closing.text], rfl⟩
  · have hcut : cutAt closeMark s = some (content, r) := by
      have hform : s = content ++ closeMark ++ r := by simpa using hs
      rw [hform, closeMark, cutAt_append_pair (by decide) hc]
    have hclosing : closingOf r = (.slash, r) := by
      rw [hr.join] at hnext
      unfold closingOf
      split
      · exact absurd rfl hnext
      · rfl
    rw [readTag_of_cutAt hcut, hclosing]
    exact ⟨rfl, rfl⟩
  · subst hlast
    obtain rfl := decomposes_nil_iff.1 hr
    obtain rfl : s = content := by simpa using hs
    unfold Token.readTag
    rw [cutAt_eq_none_iff.2 hc]
    exact ⟨by simp [Token.slice, Token.value, Token.raw, Closing.text], rfl⟩

theorem openMark_prefix_of_isTag {t : Slice} {ts : List Slice} (h : t.IsTag ts) :
    openMark <+: t.raw := by
  obtain ⟨content, -, -, hraw | ⟨hraw, -⟩ | ⟨hraw, -⟩⟩ := h
  all_goals simp [hraw]

/-- What follows text in a decomposition starts with a tag, or is nothing. -/
theorem prefix_of_isText {t : Slice} {ts : List Slice} {r : Text} (ht : t.IsText ts)
    (hr : Decomposes r ts) : r = [] ∨ openMark <+: r := by
  cases ts with
  | nil => exact .inl (decomposes_nil_iff.1 hr)
  | cons u ts =>
    obtain ⟨⟨-, hu⟩, r', rfl, -⟩ := decomposes_cons_iff.1 hr
    rw [ht.apart u rfl] at hu
    exact .inr ((openMark_prefix_of_isTag hu).trans (List.prefix_append ..))

/-- No text stands where a tag opens: it would end within the mark, and what follows it would be no
tag. -/
theorem not_isText_of_open {s r : Text} {t : Slice} {ts : List Slice} (hne : t.raw ≠ [])
    (hs : openMark ++ s = t.raw ++ r) (hr : Decomposes r ts) : ¬ t.IsText ts := by
  intro ht
  obtain ⟨c, u, hraw⟩ := List.exists_cons_of_ne_nil hne
  have hopen := ht.not_open
  rw [hraw] at hs hopen
  obtain ⟨rfl, htail⟩ := List.cons.inj hs
  cases u with
  | nil =>
    have hr' : r = '%' :: s := htail.symm
    rcases prefix_of_isText ht hr with hnil | ⟨x, hx⟩
    · rw [hnil] at hr'
      cases hr'
    · rw [hr'] at hx
      exact absurd (List.cons.inj hx).1 (by decide)
  | cons d u =>
    obtain ⟨rfl, -⟩ := List.cons.inj htail
    exact hopen (List.prefix_append openMark u).isInfix

theorem eq_slices_of_decomposes {s : Text} {ts : List Slice} (h : Decomposes s ts) :
    ts = (tokens s).map Token.slice := by
  fun_induction tokens s generalizing ts with
  | case1 =>
    cases ts with
    | nil => rfl
    | cons t ts =>
      obtain ⟨⟨hne, -⟩, r, hnil, -⟩ := decomposes_cons_iff.1 h
      exact absurd (List.append_eq_nil_iff.1 hnil.symm).1 hne
  | case2 c r r' hmark ih =>
    have hopen := after?_eq_some_iff.1 hmark
    cases ts with
    | nil => exact absurd (decomposes_nil_iff.1 h) (by simp)
    | cons t ts =>
      obtain ⟨⟨hne, hfits⟩, x, hx, hts⟩ := decomposes_cons_iff.1 h
      rw [hopen] at hx
      cases hk : t.kind with
      | text =>
        rw [hk] at hfits
        exact absurd hfits (not_isText_of_open hne hx hts)
      | tag =>
        rw [hk] at hfits
        obtain ⟨ht, rfl⟩ := eq_readTag_of_isTag hfits hk hx hts
        rw [List.map_cons, ← ht, ih hts]
  | case3 c r hmark ih =>
    have hclosed := after?_eq_none_iff.1 hmark
    cases ts with
    | nil => exact absurd (decomposes_nil_iff.1 h) (by simp)
    | cons t ts =>
      obtain ⟨⟨hne, hfits⟩, x, hx, hts⟩ := decomposes_cons_iff.1 h
      cases hk : t.kind with
      | tag =>
        rw [hk] at hfits
        refine absurd ?_ hclosed
        rw [hx]
        exact (openMark_prefix_of_isTag hfits).trans (List.prefix_append ..)
      | text =>
        rw [hk] at hfits
        obtain ⟨d, u, hraw⟩ := List.exists_cons_of_ne_nil hne
        rw [hraw, List.cons_append] at hx
        obtain ⟨rfl, rfl⟩ := List.cons.inj hx
        have hu : ¬ openMark <:+: u := fun hi =>
          hfits.not_open (by rw [hraw]; exact List.infix_cons hi)
        have hrun := readRun_append hu (prefix_of_isText hfits hts)
        have ht : t = (Token.text (c :: u)).slice := by
          obtain ⟨kind, value, raw⟩ := t
          obtain rfl : value = raw := hfits.value_eq
          simp only at hk hraw
          rw [hk, hraw]
          rfl
        rw [hrun] at ih ⊢
        rw [List.map_cons, ← ht, ih hts]

/-! ### Tags without an end -/

/-- No closing mark starts within the opening mark. -/
theorem closeMark_infix_open_iff {s : Text} : closeMark <:+: openMark ++ s ↔ closeMark <:+: s := by
  rw [openMark, List.cons_append, List.cons_append, List.nil_append, closeMark,
    pair_infix_cons_iff, pair_infix_cons_iff]
  simp

theorem Slice.isUnterminated_iff {t : Slice} :
    t.isUnterminated = true ↔ t.kind = .tag ∧ ¬ closeMark <:+: t.raw := by
  rw [Slice.isUnterminated, Bool.and_eq_true, beq_iff_eq, Bool.not_eq_true', Bool.eq_false_iff,
    ne_eq, occursIn_iff]

/-- A token runs to the end of the body exactly if it is a tag in which no closing mark is
written. -/
theorem isUnterminated_slice {s : Text} {t : Token} (h : t ∈ tokens s) :
    t.slice.isUnterminated = t.isUnterminated := by
  have hpure := Token.pure_of_mem_tokens h
  rw [Bool.eq_iff_iff, Slice.isUnterminated_iff]
  cases t with
  | text r => simp [Token.slice, Token.isUnterminated]
  | tag content closing =>
    cases closing with
    | missing =>
      refine iff_of_true ⟨rfl, ?_⟩ rfl
      rw [raw_slice, Token.raw, Closing.text, List.append_nil, closeMark_infix_open_iff]
      exact hpure
    | bracket =>
      exact iff_of_false (fun hu => hu.2 ⟨openMark ++ content, [']'], by simp [raw_slice, Token.raw,
        Closing.text]⟩) (by simp [Token.isUnterminated])
    | slash =>
      exact iff_of_false (fun hu => hu.2 ⟨openMark ++ content, [], by simp [raw_slice, Token.raw,
        Closing.text]⟩) (by simp [Token.isUnterminated])

theorem isUnterminated_iff {s : Text} {t : Token} (h : t ∈ tokens s) :
    t.isUnterminated = true ↔
      ∃ content, ¬ closeMark <:+: content ∧
        t.slice = ⟨.tag, trim content, openMark ++ content⟩ := by
  have hpure := Token.pure_of_mem_tokens h
  constructor
  · intro hu
    match t, hu with
    | .tag content .missing, _ =>
      exact ⟨content, hpure, by simp [Token.slice, Token.value, Token.raw, Closing.text]⟩
  · rintro ⟨content, hc, ht⟩
    rw [← isUnterminated_slice h, Slice.isUnterminated_iff, ht]
    exact ⟨rfl, fun hi => hc (closeMark_infix_open_iff.1 hi)⟩

/-- A tag without an end is the last token. -/
theorem eq_nil_of_isUnterminated {s : Text} {front rest : List Token} {t : Token}
    (h : tokens s = front ++ t :: rest) (ht : t.isUnterminated = true) : rest = [] := by
  have hmem : t ∈ tokens s := h ▸ List.mem_append_right _ List.mem_cons_self
  rw [← isUnterminated_slice hmem, Slice.isUnterminated_iff] at ht
  obtain ⟨hk, hraw⟩ := ht
  have hslices : (tokens s).map Token.slice = front.map Token.slice ++ t.slice ::
      rest.map Token.slice := by
    rw [h, List.map_append, List.map_cons]
  obtain ⟨-, hfits⟩ := (decomposes_tokens s).fits _ _ _ hslices
  rw [hk] at hfits
  -- Of the three ways to end, two would write a closing mark.
  obtain ⟨content, -, -, hend | ⟨hend, -⟩ | ⟨-, hlast⟩⟩ := hfits
  · exact absurd ⟨openMark ++ content, [']'], hend.symm⟩ hraw
  · exact absurd ⟨openMark ++ content, [], by rw [hend, List.append_nil]⟩ hraw
  · exact List.map_eq_nil_iff.1 hlast

/-- The tokens of a body are its one decomposition into text and tags. A token runs to the end of
the body exactly if it is an opening mark and a content without a closing mark, which its text
shows, and is then the last one. -/
theorem tokens_unique (s : Text) :
    (∀ ts : List Slice, Decomposes s ts ↔ ts = (tokens s).map Token.slice) ∧
      ∀ front t rest, tokens s = front ++ t :: rest →
        t.isUnterminated = t.slice.isUnterminated ∧
          (t.isUnterminated = true ↔ ∃ content, ¬ closeMark <:+: content ∧
            t.slice = ⟨.tag, trim content, openMark ++ content⟩) ∧
          (t.isUnterminated = true → rest = []) := by
  refine ⟨fun ts => ⟨eq_slices_of_decomposes, fun h => h ▸ decomposes_tokens s⟩, ?_⟩
  intro front t rest h
  have hmem : t ∈ tokens s := h ▸ List.mem_append_right _ List.mem_cons_self
  exact ⟨(isUnterminated_slice hmem).symm, isUnterminated_iff hmem, eq_nil_of_isUnterminated h⟩

/-- A body with marks that overlap, a tag without its bracket, and a tag without an end. -/
def ragged : Text :=
  "[[%/%a[% B //%[%]".toList

theorem tokens_ragged :
    tokens ragged = [.text ['['], .tag [] .slash, .text ['a'], .tag " B /".toList .slash] ++
        .tag [']'] .missing :: [] ∧
      Decomposes ragged ((tokens ragged).map Token.slice) ∧
      (Token.tag [']'] .missing).isUnterminated =
          (Token.tag [']'] .missing).slice.isUnterminated ∧
        ((Token.tag [']'] .missing).isUnterminated = true ↔ ∃ content, ¬ closeMark <:+: content ∧
          (Token.tag [']'] .missing).slice = ⟨.tag, trim content, openMark ++ content⟩) ∧
        ((Token.tag [']'] .missing).isUnterminated = true → ([] : List Token) = []) := by
  have h : tokens ragged = [.text ['['], .tag [] .slash, .text ['a'], .tag " B /".toList .slash] ++
      .tag [']'] .missing :: [] := by decide +kernel
  exact ⟨h, ((tokens_unique ragged).1 _).2 rfl, (tokens_unique ragged).2 _ _ _ h⟩

end Body

end Formdoc
