/-
Where the regions of a document are cut.

`firstCut f s` cuts `s` at the first place where `f` finds something
(`firstCut_eq_some_iff`, `firstCut_eq_none_iff`).  The three searches of a
document, for the end of the metadata block, for the opening of a data section
and for its closing fence, all start with line breaks and a fence (`fenced?`).
So they find nothing in front of a character that is no line break
(`blockEnd?_cons`, `sectionStart?_cons`), and lines at whose fronts no fence
stands are skipped (`firstCut_lines`).

`blankCuts` cuts off the blanks at the front up to any line break among them, and
first up to the last one (`mem_blankCuts_iff`, `head?_blankCuts_eq_some_iff`).

A text that ends in a line break and is not made of line breaks alone settles
what the first two find at its front, whatever follows it
(`blockEnd?_append`, `sectionStart?_append`); so a place that is found in a
text is found in each longer one (`firstCut_append_of_last`).
-/
import Formdoc.Document.Edit
import Formdoc.Proofs.Text.Search
import Formdoc.Proofs.Text.Trim
import Formdoc.Proofs.Value.Number

namespace Formdoc.Regions

open Text

/-! ### The first place -/

section FirstCut

variable {α : Type} {f : Text → Option α}

theorem firstCut_of_some {s : Text} {x : α} (h : f s = some x) : firstCut f s = some ([], x) := by
  unfold firstCut
  rw [h]

theorem firstCut_cons_of_none {c : Char} {s : Text} (h : f (c :: s) = none) :
    firstCut f (c :: s) = (firstCut f s).map fun p => (c :: p.1, p.2) := by
  rw [firstCut, h]

/-- The ends of a text are the text itself and the ends of its tail. -/
theorem forall_eq_append_cons {P : Text → Prop} {c : Char} {s : Text} :
    (∀ u v, c :: s = u ++ v → P v) ↔ P (c :: s) ∧ ∀ u v, s = u ++ v → P v := by
  constructor
  · intro h
    exact ⟨h [] _ rfl, fun u v huv => h (c :: u) v (by rw [huv]; rfl)⟩
  · rintro ⟨h0, h⟩ u v huv
    cases u with
    | nil =>
      rw [List.nil_append] at huv
      rw [← huv]
      exact h0
    | cons d u => exact h u v (List.cons.inj huv).2

theorem firstCut_eq_some_iff {s a : Text} {x : α} :
    firstCut f s = some (a, x) ↔
      ∃ t, s = a ++ t ∧ f t = some x ∧ ∀ u v, a = u ++ v → v ≠ [] → f (v ++ t) = none := by
  have hfront {s : Text} (hs : f s = some x) :
      ∃ t, s = [] ++ t ∧ f t = some x ∧ ∀ u v, [] = u ++ v → v ≠ [] → f (v ++ t) = none :=
    ⟨s, rfl, hs, fun u v huv hv => absurd (List.append_eq_nil_iff.1 huv.symm).2 hv⟩
  induction s generalizing a with
  | nil =>
    unfold firstCut
    constructor
    · intro h
      split at h
      · rename_i y hy
        cases h
        exact hfront hy
      · cases h
    · rintro ⟨t, hs, hx, -⟩
      obtain ⟨rfl, rfl⟩ := List.append_eq_nil_iff.1 hs.symm
      rw [hx]
  | cons c s ih =>
    cases hc : f (c :: s) with
    | some y =>
      rw [firstCut_of_some hc]
      constructor
      · intro h
        cases h
        exact hfront hc
      · rintro ⟨t, hs, hx, hnone⟩
        cases a with
        | nil =>
          rw [List.nil_append] at hs
          rw [← hs, hc, Option.some_inj] at hx
          rw [hx]
        | cons d a =>
          have := hnone [] (d :: a) rfl (by simp)
          rw [← hs, hc] at this
          cases this
    | none =>
      rw [firstCut_cons_of_none hc, Option.map_eq_some_iff]
      constructor
      · rintro ⟨⟨a', x'⟩, hp, he⟩
        cases he
        obtain ⟨t, rfl, hx, hnone⟩ := ih.1 hp
        exact ⟨t, rfl, hx, forall_eq_append_cons.2 ⟨fun _ => hc, hnone⟩⟩
      · rintro ⟨t, hs, hx, hnone⟩
        cases a with
        | nil =>
          rw [List.nil_append] at hs
          rw [← hs, hc] at hx
          cases hx
        | cons d a =>
          obtain ⟨rfl, rfl⟩ := List.cons.inj hs
          exact ⟨(a, x), ih.2 ⟨t, rfl, hx, (forall_eq_append_cons.1 hnone).2⟩, rfl⟩

theorem firstCut_eq_none_iff {s : Text} :
    firstCut f s = none ↔ ∀ u v, s = u ++ v → f v = none := by
  induction s with
  | nil =>
    unfold firstCut
    constructor
    · intro h u v huv
      obtain ⟨-, rfl⟩ := List.append_eq_nil_iff.1 huv.symm
      split at h
      · cases h
      · assumption
    · intro h
      rw [h [] [] rfl]
  | cons c s ih =>
    rw [forall_eq_append_cons, ← ih]
    cases hc : f (c :: s) with
    | some x => simp [firstCut_of_some hc]
    | none => simp [firstCut_cons_of_none hc]

/-- No place where something is found stands in front of the first one. -/
theorem length_le_of_firstCut {s a u v : Text} {x : α} (h : firstCut f s = some (a, x))
    (hs : s = u ++ v) (hv : f v ≠ none) : a.length ≤ u.length := by
  obtain ⟨t, ht, -, hnone⟩ := firstCut_eq_some_iff.1 h
  rw [hs] at ht
  rcases List.append_eq_append_iff.1 ht with ⟨w, rfl, hw⟩ | ⟨w, rfl, -⟩
  · by_cases hwne : w = []
    · simp [hwne]
    · rw [hw] at hv
      exact absurd (hnone u w rfl hwne) hv
  · simp

/-- A row of characters in front of which nothing is found is skipped. -/
theorem firstCut_append_of_forall {p : Char → Prop} (hf : ∀ c s, p c → f (c :: s) = none)
    {l : Text} (hl : ∀ c ∈ l, p c) (s : Text) :
    firstCut f (l ++ s) = (firstCut f s).map fun q => (l ++ q.1, q.2) := by
  induction l with
  | nil => simp
  | cons c l ih =>
    rw [List.cons_append, firstCut_cons_of_none (hf c _ (hl c List.mem_cons_self)),
      ih fun d hd => hl d (List.mem_cons_of_mem _ hd), Option.map_map]
    rfl

/-- The first place in a text is the first place in a longer text, if what is found at the places
up to it is settled by the text alone. -/
theorem firstCut_append {f : Text → Option Text} {s a r : Text} (h : firstCut f s = some (a, r))
    {x : Text} (hf : ∀ u v, s = u ++ v → u.length ≤ a.length → f (v ++ x) = (f v).map (· ++ x)) :
    firstCut f (s ++ x) = some (a, r ++ x) := by
  obtain ⟨t, rfl, ht, hnone⟩ := firstCut_eq_some_iff.1 h
  refine firstCut_eq_some_iff.2 ⟨t ++ x, List.append_assoc .., ?_, fun u v huv hv => ?_⟩
  · rw [hf a t rfl (Nat.le_refl _), ht]
    rfl
  · subst huv
    rw [← List.append_assoc, hf u (v ++ t) (List.append_assoc ..) (by simp), hnone u v rfl hv]
    rfl

end FirstCut

/-! ### Line breaks and blanks at the front -/

theorem afterBreaks?_cons {c : Char} (s : Text) (h : isBreak c = false) :
    afterBreaks? (c :: s) = none := by
  simp [afterBreaks?, h]

theorem afterBreaks?_eq_some_iff {s r : Text} :
    afterBreaks? s = some r ↔
      ∃ b, s = b ++ r ∧ b ≠ [] ∧ (∀ c ∈ b, isBreak c = true) ∧
        ∀ c, r.head? = some c → isBreak c = false := by
  constructor
  · intro h
    cases s with
    | nil => cases h
    | cons c s =>
      cases hc : isBreak c with
      | false =>
        rw [afterBreaks?_cons s hc] at h
        cases h
      | true =>
        simp only [afterBreaks?, hc, if_true, Option.some_inj] at h
        refine ⟨c :: s.takeWhile isBreak, ?_, by simp, ?_, ?_⟩
        · rw [← h, List.cons_append, List.takeWhile_append_dropWhile]
        · intro d hd
          rcases List.mem_cons.1 hd with rfl | hd
          · exact hc
          · exact List.mem_takeWhile_imp hd
        · intro d hd
          have := List.head?_dropWhile_not isBreak s
          rw [h, hd] at this
          simpa using this
  · rintro ⟨b, rfl, hne, hb, hr⟩
    cases b with
    | nil => exact absurd rfl hne
    | cons c b =>
      rw [List.cons_append, afterBreaks?, if_pos (hb c List.mem_cons_self),
        (span_append (fun d hd => hb d (List.mem_cons_of_mem _ hd)) hr).2]

theorem afterBreaks?_append {s x : Text} (hs : s ≠ [])
    (hx : ∀ c, x.head? = some c → isBreak c = false) :
    afterBreaks? (s ++ x) = (afterBreaks? s).map (· ++ x) := by
  cases s with
  | nil => exact absurd rfl hs
  | cons c s =>
    have hdrop : (s ++ x).dropWhile isBreak = s.dropWhile isBreak ++ x := by
      rw [List.dropWhile_append]
      split
      · rename_i he
        rw [List.isEmpty_iff] at he
        rw [he]
        cases x with
        | nil => rfl
        | cons d x => simp [hx d rfl]
      · rfl
    rw [List.cons_append, afterBreaks?, afterBreaks?, hdrop]
    split <;> rfl

/-- The ways to cut blanks off the front of a text do not depend on what follows it, if that does
not start with a blank. -/
theorem blankCuts_append (s : Text) {x : Text} (hx : ∀ c, x.head? = some c → isBlank c = false) :
    blankCuts (s ++ x) = (blankCuts s).map fun p => (p.1, p.2 ++ x) := by
  induction s with
  | nil =>
    cases x with
    | nil => rfl
    | cons c x => simp [blankCuts, hx c rfl]
  | cons c s ih =>
    simp only [List.cons_append, blankCuts, ih]
    split
    · rw [List.map_append, List.map_map, List.map_map]
      congr 1
      split <;> rfl
    · rfl

/-- Blanks, the last of which is a line break. -/
def EndsInBreak (s : Text) : Prop :=
  (∀ c ∈ s, isBlank c = true) ∧ ∃ c, s.getLast? = some c ∧ isBreak c = true

theorem EndsInBreak.ne_nil {s : Text} (h : EndsInBreak s) : s ≠ [] := by
  rintro rfl
  obtain ⟨-, c, hc, -⟩ := h
  cases hc

theorem endsInBreak_cons {c : Char} {s : Text} :
    EndsInBreak (c :: s) ↔ isBlank c = true ∧ (EndsInBreak s ∨ (s = [] ∧ isBreak c = true)) := by
  unfold EndsInBreak
  rw [List.forall_mem_cons]
  cases s with
  | nil => simp
  | cons d s => simp [List.getLast?_cons_cons, and_assoc]

theorem endsInBreak_concat {s : Text} {c : Char} (hs : ∀ d ∈ s, isBlank d = true)
    (hc : isBreak c = true) : EndsInBreak (s ++ [c]) := by
  refine ⟨fun d hd => ?_, c, List.getLast?_concat, hc⟩
  rcases List.mem_append.1 hd with hd | hd
  · exact hs d hd
  · rw [List.mem_singleton.1 hd]
    exact isBlank_of_isBreak hc

theorem endsInBreak_of_isBreak {s : Text} (hne : s ≠ []) (hs : ∀ c ∈ s, isBreak c = true) :
    EndsInBreak s := by
  obtain ⟨c, hc⟩ := Option.ne_none_iff_exists'.1 (mt List.getLast?_eq_none_iff.1 hne)
  exact ⟨fun d hd => isBlank_of_isBreak (hs d hd), c, hc, hs c (List.mem_of_getLast? hc)⟩

/-- What can be cut off the front of a text are its blanks up to any line break among them. -/
theorem mem_blankCuts_iff {s a t : Text} : (a, t) ∈ blankCuts s ↔ s = a ++ t ∧ EndsInBreak a := by
  induction s generalizing a with
  | nil =>
    refine iff_of_false (by simp [blankCuts]) ?_
    rintro ⟨h, ha⟩
    exact ha.ne_nil (List.append_eq_nil_iff.1 h.symm).1
  | cons c s ih =>
    have hcons : (a, t) ∈ blankCuts (c :: s) ↔
        isBlank c = true ∧ ((∃ b, (b, t) ∈ blankCuts s ∧ a = c :: b) ∨
          (isBreak c = true ∧ a = [c] ∧ t = s)) := by
      rw [blankCuts]
      cases isBlank c <;> cases isBreak c <;> simp [eq_comm]
    rw [hcons]
    constructor
    · rintro ⟨hc, ⟨b, hb, rfl⟩ | ⟨hbreak, rfl, rfl⟩⟩
      · obtain ⟨rfl, ha⟩ := ih.1 hb
        exact ⟨rfl, endsInBreak_cons.2 ⟨hc, .inl ha⟩⟩
      · exact ⟨rfl, endsInBreak_cons.2 ⟨hc, .inr ⟨rfl, hbreak⟩⟩⟩
    · rintro ⟨hs, ha⟩
      cases a with
      | nil => exact absurd rfl ha.ne_nil
      | cons d a =>
        obtain ⟨rfl, rfl⟩ := List.cons.inj hs
        obtain ⟨hd, ha | ⟨rfl, hbreak⟩⟩ := endsInBreak_cons.1 ha
        · exact ⟨hd, .inl ⟨a, ih.2 ⟨rfl, ha⟩, rfl⟩⟩
        · exact ⟨hd, .inr ⟨hbreak, rfl, rfl⟩⟩

theorem eq_of_mem_blankCuts {s : Text} {p : Text × Text} (h : p ∈ blankCuts s) :
    s = p.1 ++ p.2 :=
  (mem_blankCuts_iff.1 h).1

theorem isBlank_of_mem_blankCuts {s : Text} {p : Text × Text} (h : p ∈ blankCuts s) :
    ∀ c ∈ p.1, isBlank c = true :=
  (mem_blankCuts_iff.1 h).2.1

/-- The cuts come longest first. -/
theorem pairwise_blankCuts (s : Text) :
    (blankCuts s).Pairwise fun p q => q.1.length < p.1.length := by
  induction s with
  | nil => exact .nil
  | cons c s ih =>
    rw [blankCuts]
    split
    · refine List.pairwise_append.2 ⟨ih.map _ fun p q h => by simpa using h, ?_, fun p hp q hq => ?_⟩
      · split <;> simp
      · -- The last cut takes one character off, and each of the others more than that.
        obtain ⟨⟨a, t⟩, ha, rfl⟩ := List.mem_map.1 hp
        have hlength := List.length_pos_iff.2 (mem_blankCuts_iff.1 ha).2.ne_nil
        split at hq
        · rw [List.mem_singleton.1 hq]
          simpa using hlength
        · cases hq
    · exact .nil

/-- A cut that is longer than another one stands in front of it. -/
theorem mem_or_length_le_of_blankCuts_eq {s : Text} {p q : Text × Text}
    {longer shorter : List (Text × Text)} (h : blankCuts s = longer ++ p :: shorter)
    (hq : q ∈ blankCuts s) : q ∈ longer ∨ q.1.length ≤ p.1.length := by
  have hsorted := pairwise_blankCuts s
  rw [h] at hsorted hq
  rcases List.mem_append.1 hq with hq | hq
  · exact .inl hq
  · refine .inr ?_
    rcases List.mem_cons.1 hq with rfl | hq
    · exact Nat.le_refl _
    · exact Nat.le_of_lt ((List.pairwise_cons.1 (List.pairwise_append.1 hsorted).2.1).1 q hq)

theorem length_le_of_mem_blankCuts {s : Text} {p q : Text × Text}
    (hp : (blankCuts s).head? = some p) (hq : q ∈ blankCuts s) : q.1.length ≤ p.1.length := by
  obtain ⟨ps, hps⟩ := List.head?_eq_some_iff.1 hp
  have hcuts : blankCuts s = [] ++ p :: ps := hps
  exact (mem_or_length_le_of_blankCuts_eq hcuts hq).resolve_left (by simp)

/-- The first cut is the longest one. -/
theorem head?_blankCuts_eq_some_iff {s a t : Text} :
    (blankCuts s).head? = some (a, t) ↔
      s = a ++ t ∧ EndsInBreak a ∧
        ∀ a' t', s = a' ++ t' → EndsInBreak a' → a'.length ≤ a.length := by
  constructor
  · intro h
    obtain ⟨hs, ha⟩ := mem_blankCuts_iff.1 (List.mem_of_head? h)
    exact ⟨hs, ha, fun a' t' hs' ha' =>
      length_le_of_mem_blankCuts h (mem_blankCuts_iff.2 ⟨hs', ha'⟩)⟩
  · rintro ⟨rfl, ha, hmax⟩
    have hmem : (a, t) ∈ blankCuts (a ++ t) := mem_blankCuts_iff.2 ⟨rfl, ha⟩
    obtain ⟨p, hp⟩ := Option.ne_none_iff_exists'.1
      (mt List.head?_eq_none_iff.1 (List.ne_nil_of_mem hmem))
    -- The first cut and this one are cuts of one length of the same text.
    obtain ⟨hs, hend⟩ := mem_blankCuts_iff.1 (List.mem_of_head? hp)
    obtain ⟨h1, h2⟩ := List.append_inj hs
      (Nat.le_antisymm (length_le_of_mem_blankCuts hp hmem) (hmax _ _ hs hend))
    rw [hp, h1, h2]

/-! ### The three searches -/

/-- The text behind line breaks and a fence. Each of the searches starts with it. -/
def fenced? (s : Text) : Option Text :=
  (afterBreaks? s).bind (after? fence)

/-- The text behind line breaks and the opening of a data section. -/
def sectionStart? (s : Text) : Option Text :=
  (afterBreaks? s).bind opening?

theorem blockEnd?_eq (s : Text) :
    blockEnd? s = (fenced? s).bind fun q => (blankCuts q).head?.map Prod.snd := by
  unfold blockEnd? fenced?
  cases afterBreaks? s with
  | none => rfl
  | some r =>
    simp only [Option.bind_eq_bind, Option.bind_some]
    congr 1
    funext q
    cases (blankCuts q).head? <;> rfl

theorem sectionStart?_eq (s : Text) :
    sectionStart? s = (fenced? s).bind fun q => (afterBreaks? q).bind (after? Data.marker) := by
  unfold sectionStart? fenced?
  cases afterBreaks? s <;> rfl

theorem closing?_eq (s : Text) :
    closing? s = (fenced? s).bind fun q => if isBlankText q then some () else none := by
  unfold closing? fenced?
  cases afterBreaks? s <;> rfl

theorem dataStart?_eq (rest : Text) :
    dataStart? rest =
      (firstCut sectionStart? rest <|> (opening? rest).map fun tail => ([], tail)) := rfl

theorem fenced?_eq_some_iff {s r : Text} :
    fenced? s = some r ↔ ∃ b, s = b ++ fence ++ r ∧ b ≠ [] ∧ ∀ c ∈ b, isBreak c = true := by
  unfold fenced?
  rw [Option.bind_eq_some_iff]
  constructor
  · rintro ⟨q, hq, hr⟩
    obtain ⟨b, rfl, hne, hb, -⟩ := afterBreaks?_eq_some_iff.1 hq
    exact ⟨b, by rw [after?_eq_some_iff.1 hr, List.append_assoc], hne, hb⟩
  · rintro ⟨b, rfl, hne, hb⟩
    rw [List.append_assoc]
    refine ⟨fence ++ r, afterBreaks?_eq_some_iff.2 ⟨b, rfl, hne, hb, fun c hc => ?_⟩,
      after?_append ..⟩
    obtain rfl : '-' = c := Option.some_inj.1 hc
    decide

/-- A block ends in front of line breaks, a fence, and blanks, of which as many as possible are cut
off. -/
theorem blockEnd?_eq_some_iff {s r : Text} :
    blockEnd? s = some r ↔
      ∃ b w, s = b ++ fence ++ (w ++ r) ∧ b ≠ [] ∧ (∀ c ∈ b, isBreak c = true) ∧
        (blankCuts (w ++ r)).head? = some (w, r) := by
  rw [blockEnd?_eq, Option.bind_eq_some_iff]
  constructor
  · rintro ⟨q, hq, hr⟩
    obtain ⟨b, rfl, hne, hb⟩ := fenced?_eq_some_iff.1 hq
    obtain ⟨⟨w, r⟩, hw, rfl⟩ := Option.map_eq_some_iff.1 hr
    obtain rfl := eq_of_mem_blankCuts (List.mem_of_head? hw)
    exact ⟨b, w, rfl, hne, hb, hw⟩
  · rintro ⟨b, w, rfl, hne, hb, hw⟩
    exact ⟨w ++ r, fenced?_eq_some_iff.2 ⟨b, rfl, hne, hb⟩, by rw [hw]; rfl⟩

/-- A block ends in front of line breaks, a fence, and blanks that can be cut off. -/
theorem blockEnd?_ne_none {b w r : Text} (hne : b ≠ []) (hb : ∀ c ∈ b, isBreak c = true)
    (hw : EndsInBreak w) : blockEnd? (b ++ fence ++ (w ++ r)) ≠ none := by
  have hcuts : blankCuts (w ++ r) ≠ [] := List.ne_nil_of_mem (mem_blankCuts_iff.2 ⟨rfl, hw⟩)
  rwa [blockEnd?_eq, fenced?_eq_some_iff.2 ⟨b, rfl, hne, hb⟩, Option.bind_some, ne_eq,
    Option.map_eq_none_iff, List.head?_eq_none_iff]

/-- The last fence of a text settles what stands in front of it, if what stands behind it is foreign
to a fence. -/
theorem fence_append_inj {p : Char → Bool} (hp : p '-' = false) {u u' v v' : Text}
    (hv : ∀ c ∈ v, p c = true) (hv' : ∀ c ∈ v', p c = true)
    (h : u ++ fence ++ v = u' ++ fence ++ v') : u = u' := by
  have hdrop (u : Text) {v : Text} (hv : ∀ c ∈ v, p c = true) :
      dropEndWhile p (u ++ fence ++ v) = u ++ fence := by
    have hlast : (u ++ fence).getLast? = some '-' := List.getLast?_append_of_ne_nil _ (by decide)
    rw [dropEndWhile_append_of_forall _ hv, dropEndWhile_of_getLast? hlast hp]
  have heq := congrArg (dropEndWhile p) h
  rw [hdrop u hv, hdrop u' hv'] at heq
  exact List.append_cancel_right heq

theorem fenced?_cons {c : Char} (s : Text) (h : isBreak c = false) : fenced? (c :: s) = none := by
  rw [fenced?, afterBreaks?_cons s h]
  rfl

theorem blockEnd?_cons (c : Char) (s : Text) (h : isBreak c = false) :
    blockEnd? (c :: s) = none := by
  rw [blockEnd?_eq, fenced?_cons s h]
  rfl

theorem sectionStart?_cons (c : Char) (s : Text) (h : isBreak c = false) :
    sectionStart? (c :: s) = none := by
  rw [sectionStart?_eq, fenced?_cons s h]
  rfl

/-! ### Searches in longer texts -/

theorem not_mem_fence {c : Char} (h : isBreak c = true) : c ∉ fence := by
  rcases (by simpa [isBreak] using h : c = '\n' ∨ c = '\r') with rfl | rfl <;> decide

theorem not_mem_marker {c : Char} (h : isBreak c = true) : c ∉ Data.marker := by
  rcases (by simpa [isBreak] using h : c = '\n' ∨ c = '\r') with rfl | rfl <;> decide

/-- What the line breaks at the front of a text leave ends as the text does. -/
theorem getLast?_of_afterBreaks? {s r : Text} {c : Char} (h : afterBreaks? s = some r) (hr : r ≠ [])
    (hl : s.getLast? = some c) : r.getLast? = some c := by
  obtain ⟨b, rfl, -⟩ := afterBreaks?_eq_some_iff.1 h
  rwa [List.getLast?_append_of_ne_nil _ hr] at hl

/-- What is left behind a fence ends as the text does, if that ends in a line break. -/
theorem getLast?_of_fenced? {s r : Text} {c : Char} (h : fenced? s = some r)
    (hl : s.getLast? = some c) (hc : isBreak c = true) : r.getLast? = some c := by
  obtain ⟨b, rfl, -⟩ := fenced?_eq_some_iff.1 h
  cases r with
  | nil =>
    rw [List.append_nil, List.getLast?_append_of_ne_nil _ (by decide)] at hl
    exact absurd (List.mem_of_getLast? hl) (not_mem_fence hc)
  | cons d r => rwa [List.getLast?_append_of_ne_nil _ (by simp)] at hl

section Longer

variable {s x : Text} {c : Char} (hl : s.getLast? = some c) (hc : isBreak c = true)
  (hs : ∃ d ∈ s, isBreak d = false)

include hl hc hs

theorem fenced?_append (hx : ∀ d, x.head? = some d → isBreak d = false) :
    fenced? (s ++ x) = (fenced? s).map (· ++ x) := by
  have hne : s ≠ [] := by
    rintro rfl
    cases hl
  unfold fenced?
  rw [afterBreaks?_append hne hx]
  cases hb : afterBreaks? s with
  | none => rfl
  | some r =>
    have hr : r ≠ [] := by
      rintro rfl
      obtain ⟨b, hsb, -, hall, -⟩ := afterBreaks?_eq_some_iff.1 hb
      obtain ⟨d, hd, hdb⟩ := hs
      rw [hsb, List.append_nil] at hd
      rw [hall d hd] at hdb
      cases hdb
    -- The line break at the end is foreign to the fence.
    exact after?_append_of_last (getLast?_of_afterBreaks? hb hr hl) (not_mem_fence hc) x

/-- A text that ends in a line break and is not made of line breaks alone settles whether a
metadata block ends at its front. -/
theorem blockEnd?_append (hx : ∀ d, x.head? = some d → isBlank d = false) :
    blockEnd? (s ++ x) = (blockEnd? s).map (· ++ x) := by
  rw [blockEnd?_eq, blockEnd?_eq,
    fenced?_append hl hc hs fun d hd => isBreak_of_isBlank_false (hx d hd)]
  cases fenced? s with
  | none => rfl
  | some q =>
    simp only [Option.map_some, Option.bind_some]
    rw [blankCuts_append q hx, List.head?_map]
    cases (blankCuts q).head? <;> rfl

/-- A text that ends in a line break and is not made of line breaks alone settles whether a data
section opens at its front, if a fence may follow it but no line break and no marker. -/
theorem sectionStart?_append (hx : x.head? = some '-') :
    sectionStart? (s ++ x) = (sectionStart? s).map (· ++ x) := by
  have hxb : ∀ d, x.head? = some d → isBreak d = false := fun d hd => by
    rw [hx, Option.some_inj] at hd
    subst hd
    decide
  rw [sectionStart?_eq, sectionStart?_eq, fenced?_append hl hc hs hxb]
  cases hf : fenced? s with
  | none => rfl
  | some q =>
    have hql := getLast?_of_fenced? hf hl hc
    have hqne : q ≠ [] := by
      rintro rfl
      cases hql
    simp only [Option.map_some, Option.bind_some]
    rw [afterBreaks?_append hqne hxb]
    cases hq : afterBreaks? q with
    | none => rfl
    | some w =>
      simp only [Option.map_some, Option.bind_some]
      by_cases hw : w = []
      · -- Line breaks alone follow the fence: what is behind them is a hyphen, not the marker.
        subst hw
        obtain ⟨y, rfl⟩ := List.head?_eq_some_iff.1 hx
        rfl
      · exact after?_append_of_last (getLast?_of_afterBreaks? hq hw hql) (not_mem_marker hc) x

end Longer

theorem exists_of_fenced? {s r : Text} (h : fenced? s = some r) : ∃ d ∈ s, isBreak d = false := by
  obtain ⟨b, rfl, -⟩ := fenced?_eq_some_iff.1 h
  exact ⟨'-', by simp [fence], by decide⟩

theorem exists_of_blockEnd? {s r : Text} (h : blockEnd? s = some r) :
    ∃ d ∈ s, isBreak d = false := by
  rw [blockEnd?_eq, Option.bind_eq_some_iff] at h
  obtain ⟨q, hq, -⟩ := h
  exact exists_of_fenced? hq

/-- What is found behind a block is the end of the text. -/
theorem exists_eq_append_of_blockEnd? {s r : Text} (h : blockEnd? s = some r) :
    ∃ a, s = a ++ r := by
  obtain ⟨b, w, rfl, -⟩ := blockEnd?_eq_some_iff.1 h
  exact ⟨b ++ fence ++ w, by simp⟩

theorem exists_of_sectionStart? {s r : Text} (h : sectionStart? s = some r) :
    ∃ d ∈ s, isBreak d = false := by
  rw [sectionStart?_eq, Option.bind_eq_some_iff] at h
  obtain ⟨q, hq, -⟩ := h
  exact exists_of_fenced? hq

/-- A place that is found in a text that ends in a line break is found in each longer text, if no
search is satisfied by line breaks alone. -/
theorem firstCut_append_of_last {f : Text → Option Text} {s a r x : Text} {c : Char}
    (h : firstCut f s = some (a, r)) (hl : s.getLast? = some c)
    (hfound : ∀ {t q}, f t = some q → ∃ d ∈ t, isBreak d = false)
    (hf : ∀ {v}, v.getLast? = some c → (∃ d ∈ v, isBreak d = false) →
      f (v ++ x) = (f v).map (· ++ x)) :
    firstCut f (s ++ x) = some (a, r ++ x) := by
  refine firstCut_append h fun u v huv hle => ?_
  -- Up to the place that is found, the end of the text holds what is found there.
  obtain ⟨t, hs, ht, -⟩ := firstCut_eq_some_iff.1 h
  obtain ⟨d, hd, hdb⟩ := hfound ht
  have hv : ∃ w, v = w ++ t := by
    rw [hs, List.append_eq_append_iff] at huv
    rcases huv with ⟨w, rfl, hw⟩ | ⟨w, rfl, hw⟩
    · obtain rfl : w = [] := by
        rw [List.length_append] at hle
        exact List.eq_nil_of_length_eq_zero (by omega)
      exact ⟨[], hw.symm⟩
    · exact ⟨w, hw⟩
  obtain ⟨w, rfl⟩ := hv
  refine hf ?_ ⟨d, by simp [hd], hdb⟩
  have hne : w ++ t ≠ [] := by
    intro hnil
    rw [(List.append_eq_nil_iff.1 hnil).2] at hd
    cases hd
  rwa [huv, List.getLast?_append_of_ne_nil _ hne] at hl

theorem firstCut_blockEnd?_append {s a r x : Text} (h : firstCut blockEnd? s = some (a, r))
    (hl : s.getLast? = some '\n') (hx : ∀ d, x.head? = some d → isBlank d = false) :
    firstCut blockEnd? (s ++ x) = some (a, r ++ x) :=
  firstCut_append_of_last h hl exists_of_blockEnd? fun hv hd =>
    blockEnd?_append hv (by decide) hd hx

theorem firstCut_sectionStart?_append {s a r x : Text} (h : firstCut sectionStart? s = some (a, r))
    (hl : s.getLast? = some '\n') (hx : x.head? = some '-') :
    firstCut sectionStart? (s ++ x) = some (a, r ++ x) :=
  firstCut_append_of_last h hl exists_of_sectionStart? fun hv hd =>
    sectionStart?_append hv (by decide) hd hx

/-! ### Lines that no search stops at -/

theorem fenced?_break_cons {c d : Char} {s : Text} (hs : s.head? = some d) (hd : isBreak d = false)
    (hf : d ≠ '-') : fenced? (c :: s) = none := by
  rw [Option.eq_none_iff_forall_ne_some]
  intro r hr
  obtain ⟨b, hb, hne, hall⟩ := fenced?_eq_some_iff.1 hr
  -- The second character is neither a line break nor the first one of a fence.
  match b, hne with
  | [_], _ =>
    obtain ⟨-, rfl⟩ := List.cons.inj hb
    exact hf (Option.some_inj.1 hs).symm
  | _ :: e :: b, _ =>
    obtain ⟨-, rfl⟩ := List.cons.inj hb
    obtain rfl : e = d := Option.some_inj.1 hs
    have := hall e (by simp)
    rw [hd] at this
    cases this

theorem blockEnd?_break_cons {c d : Char} {s : Text} (hs : s.head? = some d)
    (hd : isBreak d = false) (hf : d ≠ '-') : blockEnd? (c :: s) = none := by
  rw [blockEnd?_eq, fenced?_break_cons hs hd hf]
  rfl

theorem sectionStart?_break_cons {c d : Char} {s : Text} (hs : s.head? = some d)
    (hd : isBreak d = false) (hf : d ≠ '-') : sectionStart? (c :: s) = none := by
  rw [sectionStart?_eq, fenced?_break_cons hs hd hf]
  rfl

/-- A line at whose front no fence stands: it has a first character, which is no hyphen, and no
line break. -/
def Unfenced (l : Text) : Prop :=
  OneLine l ∧ ∃ c, l.head? = some c ∧ c ≠ '-'

/-- Lines at whose fronts no fence stands are skipped. -/
theorem firstCut_lines {α : Type} {f : Text → Option α}
    (hcons : ∀ c s, isBreak c = false → f (c :: s) = none)
    (hbreak : ∀ {c d s}, s.head? = some d → isBreak d = false → d ≠ '-' → f (c :: s) = none)
    {ls : List Text} (hls : ∀ l ∈ ls, Unfenced l) (t : Text) :
    firstCut f (['\n'].intercalate ls ++ t) =
      (firstCut f t).map fun q => (['\n'].intercalate ls ++ q.1, q.2) := by
  have hline (l : Text) (hl : OneLine l) (t : Text) :
      firstCut f (l ++ t) = (firstCut f t).map fun q => (l ++ q.1, q.2) :=
    firstCut_append_of_forall (p := fun c => isBreak c = false) hcons hl t
  induction ls with
  | nil => simp
  | cons l ls ih =>
    have hl := hls l List.mem_cons_self
    cases ls with
    | nil =>
      rw [List.intercalate_singleton]
      exact hline l hl.1 t
    | cons m ls =>
      obtain ⟨hm, c, hc, hcf⟩ := hls m (by simp)
      have hhead : (['\n'].intercalate (m :: ls) ++ t).head? = some c := by
        cases m with
        | nil => cases hc
        | cons d m =>
          rw [← hc]
          cases ls with
          | nil => rfl
          | cons n ls => rfl
      -- The line feed is followed by a line at whose front no fence stands.
      have hstop : f ('\n' :: (['\n'].intercalate (m :: ls) ++ t)) = none :=
        hbreak hhead (hm c (List.mem_of_head? hc)) hcf
      rw [List.intercalate_cons_cons, List.append_assoc, List.append_assoc, hline l hl.1,
        List.singleton_append, firstCut_cons_of_none hstop,
        ih fun k hk => hls k (List.mem_cons_of_mem _ hk), Option.map_map, Option.map_map]
      congr 1
      funext q
      simp [List.append_assoc]

end Formdoc.Regions
