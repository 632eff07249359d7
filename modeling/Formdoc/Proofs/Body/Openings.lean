/-
Where tags open in a body.

Read from its front, a text opens a tag where the opening mark stands; the tag
takes in what follows up to its first closing mark, and other characters are
passed over (`Opens`).  A tag in which no closing mark follows is the last one
that opens (`Opens.opensLast`).

So a body has a tag that runs to its end exactly if no closing mark follows the
last place where a tag opens, and that is the place that is reported
(`unterminatedTag?_eq_some_iff`).
-/
import Formdoc.Document.Edit
import Formdoc.Proofs.Body.Places
import Formdoc.Proofs.Body.Tags

namespace Formdoc.Body

open Text

/-! ### Openings -/

/-- A tag opens in the text, with the opening mark between what stands before and after it. -/
inductive Opens : Text → Text → Text → Prop
  | here (after : Text) : Opens (openMark ++ after) [] after
  | char {c : Char} {s before after : Text} (hc : ¬ openMark <+: c :: s)
      (h : Opens s before after) : Opens (c :: s) (c :: before) after
  | tag {content rest before after : Text} (hcontent : ¬ closeMark <:+: content)
      (h : Opens rest before after) :
      Opens (openMark ++ content ++ closeMark ++ rest)
        (openMark ++ content ++ closeMark ++ before) after

/-- The last place where a tag opens. -/
def OpensLast (s before after : Text) : Prop :=
  Opens s before after ∧ ∀ b a, Opens s b a → b.length ≤ before.length

/-- No closing mark follows the last place where a tag opens. -/
def OpenEnded (s : Text) : Prop :=
  ∃ before after, OpensLast s before after ∧ ¬ closeMark <:+: after

variable {s before after : Text}

theorem opens_iff : Opens s before after ↔
    (s = openMark ++ after ∧ before = []) ∨
      (∃ c r b, s = c :: r ∧ before = c :: b ∧ ¬ openMark <+: c :: r ∧ Opens r b after) ∨
      ∃ content r b, s = openMark ++ content ++ closeMark ++ r ∧
        before = openMark ++ content ++ closeMark ++ b ∧ ¬ closeMark <:+: content ∧
        Opens r b after := by
  constructor
  · intro h
    cases h with
    | here => exact .inl ⟨rfl, rfl⟩
    | char hc h => exact .inr (.inl ⟨_, _, _, rfl, rfl, hc, h⟩)
    | tag hcontent h => exact .inr (.inr ⟨_, _, _, rfl, rfl, hcontent, h⟩)
  · rintro (⟨rfl, rfl⟩ | ⟨c, r, b, rfl, rfl, hc, h⟩ | ⟨content, r, b, rfl, rfl, hcontent, h⟩)
    · exact .here after
    · exact .char hc h
    · exact .tag hcontent h

theorem not_opens_nil : ¬ Opens [] before after := by
  rw [opens_iff]
  simp [openMark]

theorem opens_cons_iff {c : Char} (hc : ¬ openMark <+: c :: s) :
    Opens (c :: s) before after ↔ ∃ b, before = c :: b ∧ Opens s b after := by
  constructor
  · intro h
    rcases opens_iff.1 h with ⟨hs, -⟩ | ⟨d, r, b, hs, rfl, -, h⟩ | ⟨content, r, b, hs, -⟩
    · exact absurd ⟨_, hs.symm⟩ hc
    · obtain ⟨rfl, rfl⟩ := List.cons.inj hs
      exact ⟨b, rfl, h⟩
    · exact absurd ⟨content ++ closeMark ++ r, by rw [hs]; simp⟩ hc
  · rintro ⟨b, rfl, h⟩
    exact .char hc h

/-- Behind an opening mark that no closing mark follows, no other tag opens. -/
theorem opens_missing_iff (hs : ¬ closeMark <:+: s) :
    Opens (openMark ++ s) before after ↔ before = [] ∧ after = s := by
  constructor
  · intro h
    rcases opens_iff.1 h with ⟨hs', rfl⟩ | ⟨c, r, b, hs', -, hc, -⟩ | ⟨content, r, b, hs', -⟩
    · exact ⟨rfl, (List.append_cancel_left hs').symm⟩
    · exact absurd ⟨s, hs'⟩ hc
    · simp only [List.append_assoc, List.append_cancel_left_eq] at hs'
      exact absurd ⟨content, r, by rw [hs']; simp⟩ hs
  · rintro ⟨rfl, rfl⟩
    exact .here after

/-- A tag opens at a mark, or behind the tag that opens there. -/
theorem opens_close_iff {c r : Text} (hcut : cutAt closeMark s = some (c, r)) :
    Opens (openMark ++ s) before after ↔ (before = [] ∧ after = s) ∨
      ∃ b, before = openMark ++ c ++ closeMark ++ b ∧ Opens r b after := by
  have hs := eq_of_cutAt hcut
  constructor
  · intro h
    rcases opens_iff.1 h with ⟨hs', rfl⟩ | ⟨d, t, b, hs', -, hd, -⟩ |
      ⟨content, t, b, hs', rfl, hcontent, h⟩
    · exact .inl ⟨rfl, (List.append_cancel_left hs').symm⟩
    · exact absurd ⟨s, hs'⟩ hd
    · have hst : s = content ++ closeMark ++ t := by
        simpa only [List.append_assoc, List.append_cancel_left_eq] using hs'
      -- Both cut the text at its first closing mark.
      have hcut' : cutAt closeMark s = some (content, t) :=
        hst ▸ cutAt_append_pair (by decide) hcontent t
      rw [hcut, Option.some_inj, Prod.mk.injEq] at hcut'
      obtain ⟨rfl, rfl⟩ := hcut'
      exact .inr ⟨b, rfl, h⟩
  · rintro (⟨rfl, rfl⟩ | ⟨b, rfl, h⟩)
    · exact .here after
    · rw [hs, ← List.append_assoc, ← List.append_assoc]
      exact .tag (not_infix_of_cutAt (by decide) hcut) h

/-- No tag opens in the bracket that may follow a closing mark. -/
theorem exists_closingOf (r : Text) :
    ∃ w, (closingOf r).1.text = closeMark ++ w ∧
      ∀ before after, Opens r before after ↔
        ∃ b, before = w ++ b ∧ Opens (closingOf r).2 b after := by
  unfold closingOf
  split
  · rename_i r
    have hr : ¬ openMark <+: ']' :: r := fun hp =>
      absurd (List.cons_prefix_cons.1 hp).1 (by decide)
    exact ⟨[']'], rfl, fun _ _ => opens_cons_iff hr⟩
  · exact ⟨[], rfl, by simp⟩

/-- A tag that no closing mark follows is the last one that opens. -/
theorem Opens.opensLast (h : Opens s before after) (hafter : ¬ closeMark <:+: after) :
    OpensLast s before after := by
  refine ⟨h, fun b a hb => ?_⟩
  induction h generalizing b with
  | here after =>
    obtain ⟨rfl, -⟩ := (opens_missing_iff hafter).1 hb
    exact Nat.le_refl _
  | char hc h ih =>
    obtain ⟨b, rfl, hrest⟩ := (opens_cons_iff hc).1 hb
    exact Nat.succ_le_succ (ih hafter b hrest)
  | @tag content rest before after hcontent h ih =>
    have hcut : cutAt closeMark (content ++ closeMark ++ rest) = some (content, rest) :=
      cutAt_append_pair (by decide) hcontent rest
    rw [List.append_assoc, List.append_assoc, ← List.append_assoc content] at hb
    rcases (opens_close_iff hcut).1 hb with ⟨rfl, -⟩ | ⟨b, rfl, hrest⟩
    · exact Nat.zero_le _
    · have := ih hafter b hrest
      simp only [List.length_append]
      omega

/-! ### The scan for an open tag -/

/-- The place of the tag that runs to the end of a text which starts at the given place. -/
def openTag? (start : Position) (s : Text) : Option Position :=
  ((Located.spread Token.raw start (tokens s)).find? fun t => t.value.isUnterminated).map
    Located.position

theorem openTag?_readRun (start : Position) (s : Text) :
    openTag? (start.after (Token.readRun s).1) (Token.readRun s).2 = openTag? start s := by
  cases s with
  | nil => rfl
  | cons c s =>
    by_cases h : openMark <+: c :: s
    · rw [readRun_of_open h]
      rfl
    · rw [readRun_cons h, openTag?, openTag?, tokens_run h, Located.spread, List.find?_cons]
      rfl

theorem openTag?_cons {c : Char} (start : Position) (h : ¬ openMark <+: c :: s) :
    openTag? start (c :: s) = openTag? (start.next c) s := by
  rw [← openTag?_readRun start, readRun_cons h]
  exact openTag?_readRun (start.next c) s

theorem openTag?_missing (start : Position) (h : ¬ closeMark <:+: s) :
    openTag? start (openMark ++ s) = some start := by
  rw [openTag?, tokens_open, readTag_missing h, Located.spread]
  rfl

theorem openTag?_close {c r : Text} (start : Position) (h : cutAt closeMark s = some (c, r)) :
    openTag? start (openMark ++ s) =
      openTag? (start.after (openMark ++ c ++ (closingOf r).1.text)) (closingOf r).2 := by
  rw [openTag?, tokens_open, readTag_of_cutAt h, Located.spread, List.find?_cons]
  have hclosed : (Token.tag c (closingOf r).1).isUnterminated = false := by
    have := closingOf_ne_missing r
    cases hr : (closingOf r).1 <;> simp_all [Token.isUnterminated]
  simp only [hclosed]
  rfl

/-- The scan finds the tag behind which no closing mark follows. -/
theorem openTag?_eq_some_iff {start p : Position} : openTag? start s = some p ↔
    ∃ before after, Opens s before after ∧ ¬ closeMark <:+: after ∧ p = start.after before := by
  induction s using tag_induction generalizing start with
  | nil => simp [openTag?, tokens, Located.spread, not_opens_nil]
  | char c s hc ih =>
    rw [openTag?_cons start hc, ih]
    simp only [opens_cons_iff hc]
    constructor
    · rintro ⟨b, a, h, ha, rfl⟩
      exact ⟨c :: b, a, ⟨b, rfl, h⟩, ha, rfl⟩
    · rintro ⟨_, a, ⟨b, rfl, h⟩, ha, rfl⟩
      exact ⟨b, a, h, ha, rfl⟩
  | missing s hs =>
    rw [openTag?_missing start hs, Option.some_inj]
    simp only [opens_missing_iff hs]
    constructor
    · rintro rfl
      exact ⟨[], s, ⟨rfl, rfl⟩, hs, rfl⟩
    · rintro ⟨_, _, ⟨rfl, rfl⟩, -, rfl⟩
      rfl
  | close s c r hcut ih =>
    rw [openTag?_close start hcut, ih]
    obtain ⟨w, hw, hopens⟩ := exists_closingOf r
    simp only [opens_close_iff hcut, hopens]
    have hs : closeMark <:+: s := ⟨c, r, (eq_of_cutAt hcut).symm⟩
    constructor
    · rintro ⟨b, a, h, ha, rfl⟩
      exact ⟨openMark ++ c ++ closeMark ++ (w ++ b), a, .inr ⟨w ++ b, rfl, b, rfl, h⟩, ha,
        by simp [hw]⟩
    · rintro ⟨_, a, ⟨-, rfl⟩ | ⟨_, rfl, b, rfl, h⟩, ha, rfl⟩
      · exact absurd hs ha
      · exact ⟨b, a, h, ha, by simp [hw]⟩

/-- A body has a tag that runs to its end exactly if no closing mark follows the last place where a
tag opens, and that place is reported. -/
theorem unterminatedTag?_eq_some_iff {s : Text} {p : Position} :
    Document.unterminatedTag? s = some p ↔
      ∃ before after, OpensLast s before after ∧ ¬ closeMark <:+: after ∧
        p = Position.behind before := by
  rw [show Document.unterminatedTag? s = openTag? Position.first s from rfl, openTag?_eq_some_iff]
  simp only [Position.after_eq_behind]
  exact ⟨fun ⟨b, a, h, ha, hp⟩ => ⟨b, a, h.opensLast ha, ha, hp⟩,
    fun ⟨b, a, h, ha, hp⟩ => ⟨b, a, h.1, ha, hp⟩⟩

theorem unterminatedTag?_eq_none_iff_openEnded {s : Text} :
    Document.unterminatedTag? s = none ↔ ¬ OpenEnded s := by
  simp only [Option.eq_none_iff_forall_ne_some, ne_eq, unterminatedTag?_eq_some_iff, OpenEnded]
  constructor
  · rintro h ⟨b, a, hlast, ha⟩
    exact h _ ⟨b, a, hlast, ha, rfl⟩
  · rintro h p ⟨b, a, hlast, ha, -⟩
    exact h ⟨b, a, hlast, ha⟩

end Formdoc.Body
