/-
Where one text stands in another.

A mark that lacks the character between two texts stands in one of them
(`infix_append_cons_iff`); a mark of two characters may also stand across the
joint (`pair_infix_append_iff`).  What is read off the front of a text is read
off the front of any longer one:

* `after?_append_of_last` — a text whose last character is foreign to the mark
  settles by itself whether the mark stands at its front;
* `cutAt_append` — the first occurrence stays the first one when the text goes
  on behind it.
-/
import Formdoc.Text.Search
import Mathlib.Tactic.Tauto

namespace Formdoc.Text

/-! ### Marks in joined texts -/

theorem prefix_append_cons_iff {m a b : Text} {c : Char} (hc : c ∉ m) :
    m <+: a ++ c :: b ↔ m <+: a := by
  constructor
  · intro h
    induction a generalizing m with
    | nil =>
      cases m with
      | nil => exact List.nil_prefix
      | cons d m =>
        obtain ⟨rfl, -⟩ := List.cons_prefix_cons.1 h
        exact absurd List.mem_cons_self hc
    | cons d a ih =>
      cases m with
      | nil => exact List.nil_prefix
      | cons e m =>
        obtain ⟨rfl, hm⟩ := List.cons_prefix_cons.1 h
        exact List.cons_prefix_cons.2 ⟨rfl, ih (fun hmem => hc (List.mem_cons_of_mem _ hmem)) hm⟩
  · exact fun h => h.trans (List.prefix_append ..)

theorem infix_append_cons_iff {m a b : Text} {c : Char} (hc : c ∉ m) (hm : m ≠ []) :
    m <:+: a ++ c :: b ↔ m <:+: a ∨ m <:+: b := by
  induction a with
  | nil =>
    -- The mark does not start with a character that it lacks.
    have hp : ¬ m <+: c :: b := by
      intro h
      rw [show c :: b = [] ++ c :: b from rfl, prefix_append_cons_iff hc, List.prefix_nil] at h
      exact hm h
    simp [List.infix_cons_iff, hp, hm]
  | cons d a ih =>
    rw [List.cons_append, List.infix_cons_iff, List.infix_cons_iff, ih,
      show d :: (a ++ c :: b) = (d :: a) ++ c :: b from rfl, prefix_append_cons_iff hc, or_assoc]

theorem infix_cons_iff_of_not_mem {m s : Text} {c : Char} (hc : c ∉ m) (hm : m ≠ []) :
    m <:+: c :: s ↔ m <:+: s := by
  rw [show c :: s = [] ++ c :: s from rfl, infix_append_cons_iff hc hm, List.infix_nil]
  exact or_iff_right hm

theorem pair_infix_cons_iff {x y c : Char} {s : Text} :
    [x, y] <:+: c :: s ↔ (c = x ∧ s.head? = some y) ∨ [x, y] <:+: s := by
  rw [List.infix_cons_iff, List.cons_prefix_cons]
  cases s with
  | nil => simp
  | cons d s => simp [List.cons_prefix_cons, eq_comm]

/-- A mark of two characters stands in one of two joined texts, or across the joint. -/
theorem pair_infix_append_iff {x y : Char} {a b : Text} :
    [x, y] <:+: a ++ b ↔
      [x, y] <:+: a ∨ [x, y] <:+: b ∨ (a.getLast? = some x ∧ b.head? = some y) := by
  induction a with
  | nil => simp
  | cons c a ih =>
    rw [List.cons_append, pair_infix_cons_iff, pair_infix_cons_iff, ih]
    cases a with
    | nil => simp; tauto
    | cons d a => simp; tauto

/-! ### The front of a longer text -/

theorem after?_eq_none_iff {m s : Text} : after? m s = none ↔ ¬ m <+: s := by
  constructor
  · rintro h ⟨r, rfl⟩
    rw [after?_append] at h
    cases h
  · intro h
    cases hs : after? m s with
    | none => rfl
    | some r => exact absurd ⟨r, (after?_eq_some_iff.1 hs).symm⟩ h

theorem after?_append_of_some {m s r : Text} (h : after? m s = some r) (x : Text) :
    after? m (s ++ x) = some (r ++ x) := by
  rw [after?_eq_some_iff.1 h, List.append_assoc, after?_append]

/-- A text at least as long as the mark settles whether the mark stands at its front. -/
theorem after?_append_of_length {m s : Text} (h : m.length ≤ s.length) (x : Text) :
    after? m (s ++ x) = (after? m s).map (· ++ x) := by
  cases hs : after? m s with
  | some r => exact after?_append_of_some hs x
  | none =>
    rw [Option.map_none, after?_eq_none_iff]
    intro hp
    exact after?_eq_none_iff.1 hs (List.prefix_of_prefix_length_le hp (List.prefix_append ..) h)

/-- A text whose last character is foreign to the mark settles whether the mark stands at its
front. -/
theorem after?_append_of_last {m s : Text} {c : Char} (hl : s.getLast? = some c) (hc : c ∉ m)
    (x : Text) : after? m (s ++ x) = (after? m s).map (· ++ x) := by
  cases hs : after? m s with
  | some r => exact after?_append_of_some hs x
  | none =>
    obtain ⟨s, rfl⟩ := List.getLast?_eq_some_iff.1 hl
    rw [Option.map_none, after?_eq_none_iff, List.append_assoc, List.singleton_append,
      prefix_append_cons_iff hc]
    exact fun hp => after?_eq_none_iff.1 hs (hp.trans (List.prefix_append ..))

theorem cutAt_of_after? {m s r : Text} (h : after? m s = some r) : cutAt m s = some ([], r) := by
  rw [cutAt.eq_def, h]

theorem cutAt_cons_of_none {m s : Text} {c : Char} (h : after? m (c :: s) = none) :
    cutAt m (c :: s) = (cutAt m s).map fun p => (c :: p.1, p.2) := by
  rw [cutAt, h]

theorem cutAt_append {m s a b : Text} (h : cutAt m s = some (a, b)) (x : Text) :
    cutAt m (s ++ x) = some (a, b ++ x) := by
  -- The mark stands in the text, so that the text settles whether the mark stands at its front.
  have hlen : m.length ≤ s.length := by
    rw [eq_of_cutAt h]
    simp only [List.length_append]
    omega
  induction s generalizing a with
  | nil =>
    unfold cutAt at h ⊢
    rw [after?_append_of_length hlen]
    split at h
    · rename_i r hr
      cases h
      rw [hr]
      rfl
    · cases h
  | cons c s ih =>
    unfold cutAt at h ⊢
    rw [after?_append_of_length hlen]
    split at h
    · rename_i r hr
      cases h
      rw [hr]
      rfl
    · rename_i hr
      obtain ⟨⟨a', b'⟩, hp, he⟩ := Option.map_eq_some_iff.1 h
      cases he
      have hs : m.length ≤ s.length := by
        rw [eq_of_cutAt hp]
        simp only [List.length_append]
        omega
      rw [hr]
      simp only [Option.map_none, List.cons_append]
      rw [ih hp hs]
      rfl

/-- The text before the first occurrence, with the mark behind it but its last character, lacks
the mark. -/
theorem not_infix_of_cutAt {m s a b : Text} (hm : m ≠ []) (h : cutAt m s = some (a, b)) :
    ¬ m <:+: a := by
  induction s generalizing a with
  | nil =>
    unfold cutAt at h
    split at h
    · cases h
      simpa using hm
    · cases h
  | cons c s ih =>
    have hs := eq_of_cutAt h
    unfold cutAt at h
    split at h
    · cases h
      simpa using hm
    · rename_i hr
      obtain ⟨⟨a', b'⟩, hp, he⟩ := Option.map_eq_some_iff.1 h
      cases he
      rw [List.infix_cons_iff, not_or]
      refine ⟨fun hp' => after?_eq_none_iff.1 hr (hp'.trans ?_), ih hp⟩
      rw [hs, List.append_assoc]
      exact List.prefix_append ..

/-- A text without the mark, with the mark behind it, is cut there if the joint makes no earlier
occurrence. -/
theorem cutAt_append_mark {m a : Text} (b : Text)
    (h : ∀ u v, a = u ++ v → v ≠ [] → ¬ m <+: v ++ m ++ b) :
    cutAt m (a ++ m ++ b) = some (a, b) := by
  induction a with
  | nil =>
    unfold cutAt
    rw [List.nil_append, after?_append]
  | cons c a ih =>
    have hc : after? m (c :: (a ++ m ++ b)) = none :=
      after?_eq_none_iff.2 (by simpa using h [] (c :: a) rfl (by simp))
    have ih' := ih fun u v huv hv => h (c :: u) v (by simp [huv]) hv
    simp only [List.cons_append]
    unfold cutAt
    rw [hc]
    simp only [List.append_assoc] at ih' ⊢
    rw [ih']
    rfl

/-- A text without a mark of two different characters, with the mark behind it, is cut there. -/
theorem cutAt_append_pair {x y : Char} (hxy : x ≠ y) {a : Text} (h : ¬ [x, y] <:+: a) (b : Text) :
    cutAt [x, y] (a ++ [x, y] ++ b) = some (a, b) := by
  refine cutAt_append_mark b fun u v huv hv hp => h ?_
  cases v with
  | nil => exact absurd rfl hv
  | cons d v =>
    -- Across the joint the mark would have its second character where its first one stands.
    cases v with
    | nil =>
      obtain ⟨-, hp⟩ := List.cons_prefix_cons.1 hp
      exact absurd (List.cons_prefix_cons.1 hp).1.symm hxy
    | cons e v =>
      rw [huv]
      refine List.IsInfix.trans (List.IsPrefix.isInfix ?_) (List.suffix_append u _).isInfix
      refine List.prefix_of_prefix_length_le hp ?_ (by simp)
      rw [List.append_assoc]
      exact List.prefix_append ..

end Formdoc.Text
