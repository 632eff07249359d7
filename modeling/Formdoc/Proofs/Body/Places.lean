/-
Where the tokens of a body stand.

The place of a token is carried along character by character.  It can as well be
told from what is written in front of the token (`Position.behind`): a line feed
there counts a line, and a character behind the last line feed a column
(`after_eq_behind`).  So it is for each token of a body, and for the end of the
body (`position_of_scan`).
-/
import Formdoc.Body.Token
import Mathlib.Data.List.DropRight

namespace Formdoc

open Text

/-- What stands behind the last line feed of a text. -/
def Text.lastLine (s : Text) : Text :=
  s.rtakeWhile (· ≠ '\n')

namespace Position

/-- The place behind a text that starts at the first place: one line for each line feed, and one
column for each character behind the last one. -/
def behind (s : Text) : Position :=
  ⟨1 + breaks s, 1 + (lastLine s).length⟩

/-- One more character moves the place on as `next` does. -/
theorem behind_concat (s : Text) (c : Char) : behind (s ++ [c]) = (behind s).next c := by
  unfold behind next breaks lastLine
  rw [List.count_append, List.rtakeWhile_concat]
  by_cases hc : c = '\n'
  · subst hc
    simp [Nat.add_assoc]
  · simp [hc, Nat.add_assoc]

theorem after_eq_behind (s : Text) : first.after s = behind s := by
  induction s using List.reverseRecOn with
  | nil => rfl
  | append_singleton s c ih =>
    rw [after_append, ih, behind_concat]
    rfl

end Position

namespace Located

/-- A stretch starts behind all that stands in front of it. -/
theorem position_of_spread {α : Type} {text : α → Text} {p : Position} {as : List α}
    {front rest : List (Located α)} {t : Located α} (h : spread text p as = front ++ t :: rest) :
    t.position = p.after (front.flatMap fun u => text u.value) := by
  induction as generalizing p front with
  | nil => simp [spread] at h
  | cons a as ih =>
    rw [spread] at h
    cases front with
    | nil =>
      obtain ⟨rfl, -⟩ := List.cons.inj h
      rfl
    | cons u front =>
      obtain ⟨rfl, htail⟩ := List.cons.inj h
      rw [ih htail, List.flatMap_cons, Position.after_append]

theorem spread_append {α : Type} (text : α → Text) (p : Position) (as bs : List α) :
    spread text p (as ++ bs) = spread text p as ++ spread text (p.after (as.flatMap text)) bs := by
  induction as generalizing p with
  | nil => rfl
  | cons a as ih => rw [List.cons_append, spread, spread, ih, List.flatMap_cons,
      Position.after_append, List.cons_append]

theorem spread_map {α β : Type} (f : α → β) (text : β → Text) (p : Position) (as : List α) :
    spread text p (as.map f) =
      (spread (fun a => text (f a)) p as).map fun t => ⟨f t.value, t.position⟩ := by
  induction as generalizing p with
  | nil => rfl
  | cons a as ih => rw [List.map_cons, spread, spread, ih, List.map_cons]

end Located

namespace Body

/-- What is met in a body: its tokens one after another, and at last its end. -/
def scan (s : Text) : List (Located (Option Token)) :=
  (locatedTokens s).map (fun t => ⟨some t.value, t.position⟩) ++ [⟨none, Position.first.after s⟩]

/-- What is written where a token is met. At the end there is nothing. -/
def written (t : Located (Option Token)) : Text :=
  t.value.elim [] Token.raw

theorem scan_eq_spread (s : Text) :
    scan s = Located.spread (Option.elim · [] Token.raw) Position.first
      ((tokens s).map some ++ [none]) := by
  have hraw : (((tokens s).map some).flatMap fun t : Option Token => t.elim [] Token.raw) = s := by
    rw [List.flatMap_map]
    exact flatten_raw_tokens s
  rw [Located.spread_append, hraw, Located.spread_map]
  rfl

/-- A token stands where the characters in front of it say, and so does the end of the body. -/
theorem position_of_scan {s : Text} {front rest : List (Located (Option Token))}
    {t : Located (Option Token)} (h : scan s = front ++ t :: rest) :
    t.position = Position.behind (front.flatMap written) := by
  rw [scan_eq_spread] at h
  rw [Located.position_of_spread h, Position.after_eq_behind]
  rfl

/-- A body with a tag that goes on to the next line, behind a character of two bytes. -/
def accented : Text :=
  "é\n[% A\n /%]x".toList

theorem position_of_accented :
    scan accented =
        [⟨some (.text "é\n".toList), ⟨1, 1⟩⟩, ⟨some (.tag " A\n ".toList .bracket), ⟨2, 1⟩⟩,
          ⟨some (.text ['x']), ⟨3, 5⟩⟩] ++ ⟨none, ⟨3, 6⟩⟩ :: [] ∧
      (⟨3, 6⟩ : Position) = Position.behind (List.flatMap written
        [⟨some (.text "é\n".toList), ⟨1, 1⟩⟩, ⟨some (.tag " A\n ".toList .bracket), ⟨2, 1⟩⟩,
          ⟨some (.text ['x']), ⟨3, 5⟩⟩]) := by
  have h : scan accented =
      [⟨some (.text "é\n".toList), ⟨1, 1⟩⟩, ⟨some (.tag " A\n ".toList .bracket), ⟨2, 1⟩⟩,
        ⟨some (.text ['x']), ⟨3, 5⟩⟩] ++ ⟨none, ⟨3, 6⟩⟩ :: [] := by decide +kernel
  exact ⟨h, position_of_scan h⟩

end Body

end Formdoc
