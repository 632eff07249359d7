/-
Where the blocks of a body stand.

The lines of the runs of a body and its tags are its stretches (`stretches`).
Joined they are the body, and none of them is empty; so each stands where its
place says (`Located.standsAt_of_mem_spread`), and their places increase
(`Located.pairwise_before_spread`).  A block starts where one of the stretches
does, and the blocks keep the order of the stretches
(`sublist_position_read`).  So the places of the blocks increase, and at the
place of a block stands what the block says (`anchored_read`).
-/
import Formdoc.Proofs.Body.Places
import Formdoc.Proofs.Body.Written

namespace Formdoc

open Text

/-! ### Places in a text -/

/-- The text `t` stands in `s` at the place `p`: the characters of `s` in front of it lead there. -/
def Text.StandsAt (s : Text) (p : Position) (t : Text) : Prop :=
  ∃ front rest, s = front ++ t ++ rest ∧ p = Position.behind front

theorem Text.StandsAt.of_append {s t u : Text} {p : Position} (h : s.StandsAt p (t ++ u)) :
    s.StandsAt p t := by
  obtain ⟨front, rest, rfl, hp⟩ := h
  exact ⟨front, u ++ rest, by simp, hp⟩

namespace Position

theorem before_next (p : Position) (c : Char) : p.before (p.next c) := by
  unfold before next
  split <;> simp

theorem before.trans {p q r : Position} (hpq : p.before q) (hqr : q.before r) : p.before r := by
  unfold before at *
  omega

/-- A place comes before the place behind any text that starts there. -/
theorem before_after (p : Position) {s : Text} (h : s ≠ []) : p.before (p.after s) := by
  induction s generalizing p with
  | nil => exact absurd rfl h
  | cons c s ih =>
    cases s with
    | nil => exact before_next p c
    | cons d s => exact (before_next p c).trans (ih (p.next c) (by simp))

end Position

namespace Located

variable {α : Type} {text : α → Text}

/-- The places of stretches increase if no stretch is empty. -/
theorem pairwise_before_spread {p : Position} {as : List α} (h : ∀ a ∈ as, text a ≠ []) :
    ((spread text p as).map position).Pairwise Position.before := by
  induction as generalizing p with
  | nil => exact .nil
  | cons a as ih =>
    obtain ⟨ha, has⟩ := List.forall_mem_cons.1 h
    rw [spread, List.map_cons]
    refine .cons (fun q hq => ?_) (ih has)
    obtain ⟨t, ht, rfl⟩ := List.mem_map.1 hq
    obtain ⟨front, rest, hsplit⟩ := List.append_of_mem ht
    rw [position_of_spread hsplit, ← Position.after_append]
    exact p.before_after (by simp [ha])

/-- A stretch stands where its place says. -/
theorem standsAt_of_mem_spread {as : List α} {t : Located α}
    (h : t ∈ spread text Position.first as) :
    StandsAt (as.flatMap text) t.position (text t.value) := by
  obtain ⟨front, rest, hsplit⟩ := List.append_of_mem h
  refine ⟨front.flatMap fun u => text u.value, rest.flatMap fun u => text u.value, ?_, ?_⟩
  · have hvalues := congrArg (List.map value) hsplit
    rw [map_value_spread] at hvalues
    rw [hvalues]
    simp [List.flatMap_map]
  · rw [position_of_spread hsplit, Position.after_eq_behind]

end Located

/-! ### Blocks at their places -/

/-- Where a block starts. -/
def Block.position : Block → Position
  | heading _ _ p => p
  | paragraph _ p => p
  | component c => c.position

/-- What a block says stands at its place. At that of a heading stand, behind blanks, as many
number signs as its level says, blanks, and its one text; a paragraph starts where the first of its
texts does, and each of them stands at its own place; at the place of a component a tag opens. -/
def Block.Anchored (s : Text) : Block → Prop
  | heading level children p =>
    ∃ title indent gap, children = [.text title p] ∧ 1 ≤ level ∧
      (∀ c ∈ indent, isBlank c = true) ∧ gap ≠ [] ∧ (∀ c ∈ gap, isBlank c = true) ∧
        s.StandsAt p (indent ++ List.replicate level '#' ++ gap ++ title)
  | paragraph children p =>
    (∃ first, children.head? = some (.text first p)) ∧
      ∀ i ∈ children, ∃ v q, i = .text v q ∧ s.StandsAt q v
  | component c => s.StandsAt c.position openMark

namespace Markdown

/-- A line that is a heading is made of blanks, number signs, blanks, its title, and blanks. -/
theorem exists_eq_of_kind_heading {line title : Text} {level : Nat}
    (h : kind line = .heading level title) :
    ∃ indent gap rest, (∀ c ∈ indent, isBlank c = true) ∧ gap ≠ [] ∧
      (∀ c ∈ gap, isBlank c = true) ∧
        line = indent ++ List.replicate level '#' ++ gap ++ title ++ rest := by
  obtain ⟨-, -, -, -, gap, hne, hgap, htrim⟩ := kind_eq_heading_iff.1 h
  obtain ⟨a, b, ha, -, hline⟩ := exists_eq_append_trim line
  refine ⟨a, gap, b, ha, hne, hgap, ?_⟩
  rw [hline, htrim]
  simp only [List.append_assoc]

/-- Blocks start where some of the lines do, in their order. -/
theorem sublist_position_group (ls : List (Located Text)) :
    ((group ls).map Block.position).Sublist (ls.map Located.position) := by
  fun_induction group ls with
  | case1 => exact .slnil
  | case2 line rest _ ih => exact ih.cons _
  | case3 line rest level title _ ih => exact ih.cons_cons _
  | case4 line rest _ ih =>
    exact (ih.trans ((List.dropWhile_sublist isProse).map Located.position)).cons_cons _

/-- Lines that stand at their places form blocks that do. -/
theorem anchored_of_mem_group {s : Text} {ls : List (Located Text)}
    (hls : ∀ l ∈ ls, s.StandsAt l.position l.value) {b : Block} (hb : b ∈ group ls) :
    b.Anchored s := by
  fun_induction group ls with
  | case1 => cases hb
  | case2 line rest _ ih => exact ih (fun l hl => hls l (List.mem_cons_of_mem _ hl)) hb
  | case3 line rest level title hk ih =>
    rcases List.mem_cons.1 hb with rfl | hb
    · obtain ⟨indent, gap, r, hindent, hne, hgap, hline⟩ := exists_eq_of_kind_heading hk
      have hstands := hls line List.mem_cons_self
      rw [hline] at hstands
      exact ⟨title, indent, gap, rfl, (of_kind_heading hk).1, hindent, hne, hgap,
        hstands.of_append⟩
    · exact ih (fun l hl => hls l (List.mem_cons_of_mem _ hl)) hb
  | case4 line rest hk ih =>
    rcases List.mem_cons.1 hb with rfl | hb
    · refine ⟨⟨line.value, rfl⟩, fun i hi => ?_⟩
      obtain ⟨l, hl, rfl⟩ := List.mem_map.1 hi
      -- The lines of the paragraph are the first lines.
      have hfirst : line :: rest.takeWhile isProse <+: line :: rest :=
        (List.prefix_cons_inj line).2 (List.takeWhile_prefix _)
      exact ⟨l.value, l.position, rfl, hls l (hfirst.subset hl)⟩
    · refine ih (fun l hl => hls l (List.mem_cons_of_mem _ ?_)) hb
      exact (List.dropWhile_suffix isProse).subset hl

end Markdown

/-! ### Stretches -/

/-- The lines of a run of text, or a tag as one piece. -/
def Token.stretches : Token → List Text
  | text s => pieces s
  | tag content closing => [(tag content closing).raw]

theorem Token.flatten_stretches (t : Token) : t.stretches.flatten = t.raw := by
  cases t with
  | text s => exact flatten_pieces s
  | tag content closing => simp [stretches]

theorem Token.ne_nil_of_mem_stretches {t : Token} {p : Text} (h : p ∈ t.stretches) : p ≠ [] := by
  cases t with
  | text s => exact ne_nil_of_mem_pieces h
  | tag content closing =>
    rw [List.mem_singleton.1 h]
    simp [raw, openMark]

namespace Body

/-- The lines of the runs of a body, and its tags, each with the place where it starts. -/
def stretches (s : Text) : List (Located Text) :=
  Located.spread id Position.first ((tokens s).flatMap Token.stretches)

theorem flatMap_stretches (ts : List Token) :
    (ts.flatMap Token.stretches).flatMap id = ts.flatMap Token.raw := by
  rw [List.flatMap_assoc]
  congr 1
  funext t
  rw [List.flatMap_id, Token.flatten_stretches]

theorem spread_stretches_cons (p : Position) (t : Token) (ts : List Token) :
    Located.spread id p ((t :: ts).flatMap Token.stretches) =
      Located.spread id p t.stretches ++
        Located.spread id (p.after t.raw) (ts.flatMap Token.stretches) := by
  rw [List.flatMap_cons, Located.spread_append, List.flatMap_id, Token.flatten_stretches]

/-- A tag gives no block, or a component that stands where the tag does. -/
theorem blocksOf_tag (content : Text) (closing : Closing) (p : Position) :
    blocksOf ⟨.tag content closing, p⟩ = [] ∨
      ∃ c, blocksOf ⟨.tag content closing, p⟩ = [.component c] ∧ c.position = p := by
  simp only [blocksOf, Tag.component?]
  cases words content with
  | nil => exact .inl rfl
  | cons name rest => exact .inr ⟨_, rfl, rfl⟩

theorem sublist_position_blocksOf (t : Token) (p : Position) :
    ((blocksOf ⟨t, p⟩).map Block.position).Sublist
      ((Located.spread id p t.stretches).map Located.position) := by
  cases t with
  | text s => exact Markdown.sublist_position_group _
  | tag content closing =>
    rcases blocksOf_tag content closing p with hnil | ⟨c, hc, rfl⟩
    · rw [hnil]
      exact List.nil_sublist _
    · rw [hc]
      exact List.Sublist.refl _

theorem anchored_of_mem_blocksOf {s : Text} {t : Token} {p : Position}
    (ht : ∀ l ∈ Located.spread id p t.stretches, s.StandsAt l.position l.value) {b : Block}
    (hb : b ∈ blocksOf ⟨t, p⟩) : b.Anchored s := by
  cases t with
  | text r => exact Markdown.anchored_of_mem_group ht hb
  | tag content closing =>
    rcases blocksOf_tag content closing p with hnil | ⟨c, hc, rfl⟩
    · rw [hnil] at hb
      cases hb
    · rw [hc, List.mem_singleton] at hb
      subst hb
      have hraw : s.StandsAt c.position (openMark ++ (content ++ closing.text)) := by
        rw [← List.append_assoc]
        exact ht ⟨_, c.position⟩ List.mem_cons_self
      exact hraw.of_append

/-- Blocks start where some of the stretches do, in their order. -/
theorem sublist_position_read (s : Text) :
    ((read s).1.map Block.position).Sublist ((stretches s).map Located.position) := by
  have hall (p : Position) (ts : List Token) :
      (((Located.spread Token.raw p ts).flatMap blocksOf).map Block.position).Sublist
        ((Located.spread id p (ts.flatMap Token.stretches)).map Located.position) := by
    induction ts generalizing p with
    | nil => exact .slnil
    | cons t ts ih =>
      rw [Located.spread, List.flatMap_cons, List.map_append, spread_stretches_cons,
        List.map_append]
      exact (sublist_position_blocksOf t p).append (ih _)
  exact hall Position.first (tokens s)

theorem pairwise_before_read (s : Text) :
    ((read s).1.map Block.position).Pairwise Position.before := by
  refine (Located.pairwise_before_spread fun p hp => ?_).sublist (sublist_position_read s)
  obtain ⟨t, -, hpt⟩ := List.mem_flatMap.1 hp
  exact Token.ne_nil_of_mem_stretches hpt

/-- What a block of a body says stands at its place. -/
theorem anchored_of_mem_read {s : Text} {b : Block} (h : b ∈ (read s).1) : b.Anchored s := by
  have hstands : ∀ l ∈ stretches s, s.StandsAt l.position l.value := fun l hl => by
    have := Located.standsAt_of_mem_spread hl
    rwa [flatMap_stretches, flatten_raw_tokens] at this
  have hall (p : Position) (ts : List Token)
      (hts : ∀ l ∈ Located.spread id p (ts.flatMap Token.stretches),
        s.StandsAt l.position l.value)
      (hb : b ∈ (Located.spread Token.raw p ts).flatMap blocksOf) : b.Anchored s := by
    induction ts generalizing p with
    | nil => cases hb
    | cons t ts ih =>
      rw [spread_stretches_cons, List.forall_mem_append] at hts
      rw [Located.spread, List.flatMap_cons, List.mem_append] at hb
      rcases hb with hb | hb
      · exact anchored_of_mem_blocksOf hts.1 hb
      · exact ih _ hts.2 hb
  exact hall Position.first (tokens s) hstands h

end Body

namespace Document

/-- Each block of a document points at its own text in the body, and the places of the blocks
increase. -/
theorem anchored_read (source : Text) :
    (∀ b ∈ (read source).document.body, b.Anchored (Regions.read source).body) ∧
      ((read source).document.body.map Block.position).Pairwise Position.before :=
  ⟨fun _ => Body.anchored_of_mem_read, Body.pairwise_before_read _⟩

/-- A document with an indented heading, and with text in front of a tag and behind it. -/
def agenda : Text :=
  "---\nt: x\n---\n# É\n\nab\ncd[% A\n /%]  ## e".toList

theorem anchored_agenda :
    .heading 1 [.text ['É'] ⟨1, 1⟩] ⟨1, 1⟩ ∈ (read agenda).document.body ∧
      (Block.heading 1 [.text ['É'] ⟨1, 1⟩] ⟨1, 1⟩).Anchored (Regions.read agenda).body ∧
    .paragraph [.text "ab\n".toList ⟨3, 1⟩, .text "cd".toList ⟨4, 1⟩] ⟨3, 1⟩ ∈
        (read agenda).document.body ∧
      (Block.paragraph [.text "ab\n".toList ⟨3, 1⟩, .text "cd".toList ⟨4, 1⟩] ⟨3, 1⟩).Anchored
        (Regions.read agenda).body ∧
    .heading 2 [.text ['e'] ⟨5, 5⟩] ⟨5, 5⟩ ∈ (read agenda).document.body ∧
      (Block.heading 2 [.text ['e'] ⟨5, 5⟩] ⟨5, 5⟩).Anchored (Regions.read agenda).body ∧
    (read agenda).document.body.map Block.position = [⟨1, 1⟩, ⟨3, 1⟩, ⟨4, 3⟩, ⟨5, 5⟩] ∧
      ((read agenda).document.body.map Block.position).Pairwise Position.before := by
  have hheading : .heading 1 [.text ['É'] ⟨1, 1⟩] ⟨1, 1⟩ ∈ (read agenda).document.body := by
    decide +kernel
  have hparagraph : .paragraph [.text "ab\n".toList ⟨3, 1⟩, .text "cd".toList ⟨4, 1⟩] ⟨3, 1⟩ ∈
      (read agenda).document.body := by decide +kernel
  have htail : .heading 2 [.text ['e'] ⟨5, 5⟩] ⟨5, 5⟩ ∈ (read agenda).document.body := by
    decide +kernel
  obtain ⟨hanchored, hbefore⟩ := anchored_read agenda
  exact ⟨hheading, hanchored _ hheading, hparagraph, hanchored _ hparagraph, htail,
    hanchored _ htail, by decide +kernel, hbefore⟩

end Document

end Formdoc
