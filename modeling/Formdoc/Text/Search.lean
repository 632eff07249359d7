/-
Finding one text in another.

`after? m s` is what follows `m` at the front of `s`, and `cutAt m s` cuts `s`
at the first place where `m` occurs.  Both are pinned by an equation between
texts:

* `after?_eq_some_iff` — `after? m s = some r ↔ s = m ++ r`;
* `eq_of_cutAt` — the two parts with `m` between them are the whole text;
* `cutAt_eq_none_iff` — there is no cut exactly when `m` is no infix.
-/
import Formdoc.Text.Blank

namespace Formdoc.Text

/-- What follows a given beginning. -/
def after? : Text → Text → Option Text
  | [], s => some s
  | _ :: _, [] => none
  | a :: m, c :: s => if a = c then after? m s else none

theorem after?_eq_some_iff {m s r : Text} : after? m s = some r ↔ s = m ++ r := by
  induction m generalizing s with
  | nil => simp [after?]
  | cons a m ih =>
    cases s with
    | nil => simp [after?]
    | cons c s =>
      by_cases h : a = c
      · simp [after?, h, ih]
      · simp [after?, h, Ne.symm h]

@[simp] theorem after?_append (m r : Text) : after? m (m ++ r) = some r :=
  after?_eq_some_iff.2 rfl

theorem length_after? {m s r : Text} (h : after? m s = some r) :
    s.length = m.length + r.length := by
  rw [after?_eq_some_iff.1 h, List.length_append]

/-- The text before the first occurrence of `m`, and the text after it. -/
def cutAt (m : Text) (s : Text) : Option (Text × Text) :=
  match after? m s with
  | some r => some ([], r)
  | none =>
    match s with
    | [] => none
    | c :: s => (cutAt m s).map fun p => (c :: p.1, p.2)

theorem eq_of_cutAt {m s a b : Text} (h : cutAt m s = some (a, b)) : s = a ++ m ++ b := by
  induction s generalizing a with
  | nil =>
    unfold cutAt at h
    split at h
    · rename_i r hr
      cases h
      simpa using after?_eq_some_iff.1 hr
    · simp at h
  | cons c s ih =>
    unfold cutAt at h
    split at h
    · rename_i r hr
      cases h
      simpa using after?_eq_some_iff.1 hr
    · obtain ⟨p, hp, he⟩ := Option.map_eq_some_iff.1 h
      cases he
      simp [ih hp]

theorem cutAt_eq_none_iff {m s : Text} : cutAt m s = none ↔ ¬ m <:+: s := by
  induction s with
  | nil =>
    cases m with
    | nil => simp [cutAt, after?]
    | cons a m => simp [cutAt, after?]
  | cons c s ih =>
    unfold cutAt
    rw [List.infix_cons_iff]
    split
    · rename_i r hr
      simp [after?_eq_some_iff.1 hr]
    · rename_i hr
      have hp : ¬ m <+: c :: s := by
        rintro ⟨t, ht⟩
        rw [← ht, after?_append] at hr
        cases hr
      simp [ih, hp]

/-- The text `m` occurs in `s`. -/
def occursIn (m s : Text) : Bool :=
  (cutAt m s).isSome

theorem occursIn_iff {m s : Text} : occursIn m s = true ↔ m <:+: s := by
  rw [occursIn, Option.isSome_iff_ne_none, ne_eq, cutAt_eq_none_iff, Decidable.not_not]

end Formdoc.Text
