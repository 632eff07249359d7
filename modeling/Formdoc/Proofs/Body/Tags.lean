/-
The tags of a text.

`tagsOf s` lists the tags of `s` in order, each with what stands between its
marks and how it ends.  A character that opens no tag may be dropped from the
front (`tagsOf_cons`), and a tag may be read off the front
(`tagsOf_open_close`, `tagsOf_open_missing`); the rest of the theory follows
from these three by induction on the length of the text:

* `tagsOf_append` — behind a text whose tags are all closed, the tags are those
  of the two texts one after the other;
* `exists_of_not_terminated` — otherwise the last tag of the first text goes on
  into the second;
* `tagsOf_trim` — blanks at the ends make no difference.

A text has no tags exactly if no tag opens in it (`tagsOf_eq_nil_iff`).
-/
import Formdoc.Document.Edit
import Formdoc.Proofs.Text.Search
import Formdoc.Proofs.Text.Trim

namespace Formdoc

/-- The content of a tag and how it ends. -/
def Token.tag? : Token → Option (Text × Closing)
  | text _ => none
  | tag content closing => some (content, closing)

namespace Body

open Text

/-- The tags of a text, in order. -/
def tagsOf (s : Text) : List (Text × Closing) :=
  (tokens s).filterMap Token.tag?

/-- Every tag of the text is closed. -/
def Terminated (s : Text) : Prop :=
  ∀ t ∈ tagsOf s, t.2 ≠ .missing

/-- How a tag ends whose closing mark the text follows, and what follows the tag. -/
def closingOf : Text → Closing × Text
  | ']' :: r => (.bracket, r)
  | r => (.slash, r)

theorem closingOf_ne_missing (r : Text) : (closingOf r).1 ≠ .missing := by
  unfold closingOf
  split <;> simp

theorem length_closingOf_le (r : Text) : (closingOf r).2.length ≤ r.length := by
  unfold closingOf
  split <;> simp

theorem closingOf_append {r x : Text} (h : x.head? ≠ some ']') :
    closingOf (r ++ x) = ((closingOf r).1, (closingOf r).2 ++ x) := by
  cases r with
  | nil =>
    cases x with
    | nil => rfl
    | cons c x =>
      have hc : c ≠ ']' := fun hc => h (by simp [hc])
      simp [closingOf, hc]
  | cons c r =>
    by_cases hc : c = ']'
    · subst hc
      rfl
    · simp [closingOf, hc]

/-! ### Reading tags off the front -/

@[simp] theorem tagsOf_nil : tagsOf [] = [] := by
  simp [tagsOf, tokens]

theorem tokens_open (s : Text) :
    tokens (openMark ++ s) = (Token.readTag s).1 :: tokens (Token.readTag s).2 := by
  have ho : openMark ++ s = '[' :: '%' :: s := rfl
  have ha : after? openMark ('[' :: '%' :: s) = some s := after?_append openMark s
  rw [ho, tokens]
  split
  · rename_i r hr
    rw [ha] at hr
    cases hr
    rfl
  · rename_i hr
    rw [ha] at hr
    cases hr

theorem readTag_of_cutAt {s c r : Text} (h : cutAt closeMark s = some (c, r)) :
    Token.readTag s = (.tag c (closingOf r).1, (closingOf r).2) := by
  unfold Token.readTag closingOf
  rw [h]
  cases r with
  | nil => rfl
  | cons d r =>
    by_cases hd : d = ']'
    · subst hd
      rfl
    · simp [hd]

theorem tagsOf_open_close {s c r : Text} (h : cutAt closeMark s = some (c, r)) :
    tagsOf (openMark ++ s) = (c, (closingOf r).1) :: tagsOf (closingOf r).2 := by
  unfold tagsOf
  rw [tokens_open, readTag_of_cutAt h, List.filterMap_cons]
  rfl

theorem readTag_missing {s : Text} (h : ¬ closeMark <:+: s) :
    Token.readTag s = (.tag s .missing, []) := by
  rw [Token.readTag, cutAt_eq_none_iff.2 h]

theorem tagsOf_open_missing {s : Text} (h : ¬ closeMark <:+: s) :
    tagsOf (openMark ++ s) = [(s, .missing)] := by
  unfold tagsOf
  rw [tokens_open, readTag_missing h, List.filterMap_cons, tokens]
  rfl

theorem readRun_of_open {s : Text} (h : openMark <+: s) : Token.readRun s = ([], s) := by
  obtain ⟨r, rfl⟩ := h
  unfold Token.readRun
  rw [cutAt_of_after? (after?_append ..)]

/-- A run that starts one character later ends at the same place. -/
theorem readRun_cons {c : Char} {s : Text} (h : ¬ openMark <+: c :: s) :
    Token.readRun (c :: s) = (c :: (Token.readRun s).1, (Token.readRun s).2) := by
  unfold Token.readRun
  rw [cutAt_cons_of_none (after?_eq_none_iff.2 h)]
  cases cutAt openMark s with
  | none => rfl
  | some p => rfl

theorem tokens_run {c : Char} {s : Text} (h : ¬ openMark <+: c :: s) :
    tokens (c :: s) = .text (c :: (Token.readRun s).1) :: tokens (Token.readRun s).2 := by
  rw [tokens]
  split
  · rename_i r hr
    rw [after?_eq_none_iff.2 h] at hr
    cases hr
  · rfl

theorem tagsOf_readRun (s : Text) : tagsOf (Token.readRun s).2 = tagsOf s := by
  cases s with
  | nil => rfl
  | cons c s =>
    by_cases h : openMark <+: c :: s
    · rw [readRun_of_open h]
    · rw [readRun_cons h, tagsOf, tagsOf, tokens_run h, List.filterMap_cons]
      rfl

/-- A character that opens no tag belongs to no tag. -/
theorem tagsOf_cons {c : Char} {s : Text} (h : ¬ openMark <+: c :: s) :
    tagsOf (c :: s) = tagsOf s := by
  rw [← tagsOf_readRun, readRun_cons h]
  exact tagsOf_readRun s

/-- Induction along the tags of a text: a text is empty, starts with a character that opens no
tag, or starts with a tag, which is closed or is not. -/
theorem tag_induction {P : Text → Prop} (nil : P [])
    (char : ∀ c s, ¬ openMark <+: c :: s → P s → P (c :: s))
    (missing : ∀ s, ¬ closeMark <:+: s → P (openMark ++ s))
    (close : ∀ s c r, cutAt closeMark s = some (c, r) → P (closingOf r).2 → P (openMark ++ s))
    (s : Text) : P s := by
  induction hn : s.length using Nat.strongRecOn generalizing s with
  | _ n ih =>
    subst hn
    cases s with
    | nil => exact nil
    | cons c s =>
      by_cases h : openMark <+: c :: s
      · obtain ⟨t, ht⟩ := h
        rw [← ht] at ih ⊢
        cases hc : cutAt closeMark t with
        | none => exact missing t (cutAt_eq_none_iff.1 hc)
        | some p =>
          -- What follows a closed tag is shorter than the text.
          refine close t p.1 p.2 hc (ih _ ?_ _ rfl)
          have h1 := length_closingOf_le p.2
          have h2 := congrArg List.length (eq_of_cutAt hc)
          simp only [List.length_append, closeMark, openMark, List.length_cons,
            List.length_nil] at h2 ⊢
          omega
      · exact char c s h (ih s.length (by simp) s rfl)

/-! ### Joined texts -/

theorem not_prefix_cons_append {c : Char} {s x : Text} (h : ¬ openMark <+: c :: s)
    (hx : x.head? ≠ some '%') : ¬ openMark <+: c :: (s ++ x) := by
  intro hp
  cases s with
  | nil =>
    obtain ⟨t, ht⟩ := hp
    cases ht
    exact hx rfl
  | cons d s =>
    -- Two characters settle whether the mark stands at the front.
    refine h (List.prefix_of_prefix_length_le hp ?_ (by simp [openMark]))
    exact List.prefix_append (c :: d :: s) x

theorem tagsOf_append {s x : Text} (hs : Terminated s) (hb : x.head? ≠ some ']')
    (hp : x.head? ≠ some '%') : tagsOf (s ++ x) = tagsOf s ++ tagsOf x := by
  induction s using tag_induction with
  | nil => simp
  | char c s h ih =>
    rw [Terminated, tagsOf_cons h] at hs
    rw [List.cons_append, tagsOf_cons (not_prefix_cons_append h hp), tagsOf_cons h, ih hs]
  | missing s h =>
    rw [Terminated, tagsOf_open_missing h] at hs
    exact absurd rfl (hs _ (List.mem_singleton_self _))
  | close s c r h ih =>
    rw [Terminated, tagsOf_open_close h] at hs
    rw [List.append_assoc, tagsOf_open_close (cutAt_append h x), tagsOf_open_close h,
      closingOf_append hb, ih fun t ht => hs t (List.mem_cons_of_mem _ ht)]
    rfl

/-- The last tag of a text whose tags are not all closed takes in what follows the text. -/
theorem exists_of_not_terminated {s : Text} (hs : ¬ Terminated s) :
    ∃ ts c, ¬ closeMark <:+: c ∧ tagsOf s = ts ++ [(c, .missing)] ∧
      ∀ x : Text, x.head? ≠ some ']' → x.head? ≠ some '%' →
        tagsOf (s ++ x) = ts ++ tagsOf (openMark ++ (c ++ x)) := by
  induction s using tag_induction with
  | nil => exact absurd (by simp [Terminated]) hs
  | char c s h ih =>
    rw [Terminated, tagsOf_cons h] at hs
    obtain ⟨ts, d, hd, hts, hx⟩ := ih hs
    refine ⟨ts, d, hd, by rw [tagsOf_cons h, hts], fun x hb hp => ?_⟩
    rw [List.cons_append, tagsOf_cons (not_prefix_cons_append h hp), hx x hb hp]
  | missing s h =>
    exact ⟨[], s, h, by rw [tagsOf_open_missing h]; rfl, fun x _ _ => by simp⟩
  | close s c r h ih =>
    -- The first tag is closed, so that the open one stands behind it.
    have hr : ¬ Terminated (closingOf r).2 := by
      intro hr
      refine hs fun t ht => ?_
      rw [tagsOf_open_close h] at ht
      rcases List.mem_cons.1 ht with rfl | ht
      · exact closingOf_ne_missing r
      · exact hr t ht
    obtain ⟨ts, d, hd, hts, hx⟩ := ih hr
    refine ⟨(c, (closingOf r).1) :: ts, d, hd, by rw [tagsOf_open_close h, hts]; rfl, ?_⟩
    intro x hb hp
    rw [List.append_assoc, tagsOf_open_close (cutAt_append h x), closingOf_append hb, hx x hb hp]
    rfl

/-- A tag that is not closed stays so if no closing mark follows. -/
theorem not_terminated_append {s x : Text} (hs : ¬ Terminated s) (hx : ¬ closeMark <:+: x)
    (hb : x.head? ≠ some ']') (hp : x.head? ≠ some '%') : ¬ Terminated (s ++ x) := by
  obtain ⟨ts, c, hc, -, h⟩ := exists_of_not_terminated hs
  -- The mark stands neither in the tag nor behind it, nor across the joint.
  have hcx : ¬ closeMark <:+: c ++ x := by
    rw [closeMark, pair_infix_append_iff]
    rintro (h1 | h1 | ⟨-, h1⟩)
    · exact hc h1
    · exact hx h1
    · exact hp h1
  intro ht
  refine ht (c ++ x, .missing) ?_ rfl
  rw [h x hb hp, tagsOf_open_missing hcx]
  simp

/-- A tag that is not closed takes in the character behind the text, if that character has no part
in the marks. -/
theorem exists_mem_tagsOf_of_not_terminated {s x : Text} {b : Char} (hs : ¬ Terminated s)
    (hb : b ≠ ']') (hp : b ≠ '%') (hslash : b ≠ '/') : ∃ t ∈ tagsOf (s ++ b :: x), b ∈ t.1 := by
  obtain ⟨ts, c, hc, -, h⟩ := exists_of_not_terminated hs
  rw [h (b :: x) (by simpa using hb) (by simpa using hp)]
  cases hcut : cutAt closeMark (c ++ b :: x) with
  | none =>
    rw [tagsOf_open_missing (cutAt_eq_none_iff.1 hcut)]
    exact ⟨(c ++ b :: x, .missing), by simp, by simp⟩
  | some p =>
    obtain ⟨a, r⟩ := p
    rw [tagsOf_open_close hcut]
    refine ⟨(a, (closingOf r).1), by simp, ?_⟩
    -- The closing mark stands behind the new character, or within the tag, where there is none.
    have heq := eq_of_cutAt hcut
    rw [List.append_assoc, List.append_eq_append_iff] at heq
    rcases heq with ⟨a', rfl, ha⟩ | ⟨c', rfl, ha⟩
    · cases a' with
      | nil =>
        cases ha
        exact absurd rfl hslash
      | cons d a' =>
        cases ha
        simp
    · rcases c' with - | ⟨d, - | ⟨e, c'⟩⟩
      · cases ha
        exact absurd rfl hslash
      · cases ha
        exact absurd rfl hp
      · simp only [closeMark, List.cons_append, List.nil_append, List.cons.injEq] at ha
        obtain ⟨rfl, rfl, -⟩ := ha
        exact absurd ⟨a, c', by simp [closeMark]⟩ hc

/-! ### Blanks at the ends -/

theorem tagsOf_of_not_open {s : Text} (h : ¬ openMark <:+: s) : tagsOf s = [] := by
  induction s with
  | nil => simp
  | cons c s ih =>
    rw [List.infix_cons_iff, not_or] at h
    rw [tagsOf_cons h.1, ih h.2]

theorem terminated_of_not_open {s : Text} (h : ¬ openMark <:+: s) : Terminated s := by
  intro t ht
  rw [tagsOf_of_not_open h] at ht
  cases ht

/-- A text has no tags exactly if no tag opens in it. -/
theorem tagsOf_eq_nil_iff {s : Text} : tagsOf s = [] ↔ ¬ openMark <:+: s := by
  refine ⟨fun h => ?_, tagsOf_of_not_open⟩
  induction s using tag_induction with
  | nil => decide
  | char c s hc ih =>
    rw [tagsOf_cons hc] at h
    rw [List.infix_cons_iff]
    exact not_or.2 ⟨hc, ih h⟩
  | missing s hc =>
    rw [tagsOf_open_missing hc] at h
    cases h
  | close s c r hc ih =>
    rw [tagsOf_open_close hc] at h
    cases h

/-- A text in which no tag opens, and that ends in a line feed, makes no difference in front. -/
theorem tagsOf_lines_append {s : Text} (h : ¬ openMark <:+: s)
    (hl : s = [] ∨ s.getLast? = some '\n') (x : Text) : tagsOf (s ++ x) = tagsOf x := by
  rcases hl with rfl | hl
  · rfl
  · -- The line feed keeps a tag from opening across the joint.
    obtain ⟨t, rfl⟩ := List.getLast?_eq_some_iff.1 hl
    have ht : ¬ openMark <:+: t := fun hi => h (hi.trans (List.prefix_append ..).isInfix)
    rw [List.append_assoc, List.singleton_append,
      tagsOf_append (terminated_of_not_open ht) (by simp) (by simp), tagsOf_of_not_open ht,
      List.nil_append, tagsOf_cons]
    intro hp
    obtain ⟨h0, -⟩ := List.cons_prefix_cons.1 hp
    exact absurd h0 (by decide)

/-- A row of characters with which no tag opens makes no difference in front. -/
theorem tagsOf_append_of_not_mem {w : Text} (h : '[' ∉ w) (s : Text) :
    tagsOf (w ++ s) = tagsOf s := by
  induction w with
  | nil => rfl
  | cons c w ih =>
    rw [List.mem_cons, not_or] at h
    rw [List.cons_append, tagsOf_cons, ih h.2]
    exact fun hp => h.1 (List.cons_prefix_cons.1 hp).1

theorem tagsOf_blank_append {w : Text} (s : Text) (h : ∀ c ∈ w, isBlank c = true) :
    tagsOf (w ++ s) = tagsOf s :=
  tagsOf_append_of_not_mem (fun hm => absurd (h '[' hm) (by decide)) s

theorem head?_ne_of_blank {w : Text} {c : Char} (h : ∀ d ∈ w, isBlank d = true)
    (hc : isBlank c = false) : w.head? ≠ some c := by
  intro hw
  have := h c (List.mem_of_head? hw)
  rw [hc] at this
  cases this

theorem not_infix_of_blank {w m : Text} {c : Char} (h : ∀ d ∈ w, isBlank d = true) (hm : c ∈ m)
    (hc : isBlank c = false) : ¬ m <:+: w := by
  intro hi
  have := h c (hi.subset hm)
  rw [hc] at this
  cases this

/-- Blanks at the ends of a text whose tags are all closed belong to no tag. -/
theorem tagsOf_trim {s : Text} (hs : Terminated s) : tagsOf (trim s) = tagsOf s := by
  obtain ⟨a, b, ha, hb, hsplit⟩ := exists_eq_append_trim s
  have hab : tagsOf s = tagsOf (trim s ++ b) := by
    conv_lhs => rw [hsplit, List.append_assoc, tagsOf_blank_append _ ha]
  have h1 : b.head? ≠ some ']' := head?_ne_of_blank hb (by decide)
  have h2 : b.head? ≠ some '%' := head?_ne_of_blank hb (by decide)
  -- An open tag would take in the blanks and stay open.
  have ht : Terminated (trim s) := by
    by_contra hn
    refine not_terminated_append hn
      (not_infix_of_blank (c := '%') hb (by simp [closeMark]) (by decide)) h1 h2 ?_
    rw [Terminated, ← hab]
    exact hs
  rw [hab, tagsOf_append ht h1 h2,
    tagsOf_of_not_open (not_infix_of_blank (c := '%') hb (by simp [openMark]) (by decide)),
    List.append_nil]

end Body

end Formdoc
