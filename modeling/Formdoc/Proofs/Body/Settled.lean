/-
Bodies that stay as they are when they are written again.

What a round trip does to a body (`rewritten`) makes its text longer, if it
changes anything.  So the text stays the same exactly if the blocks do
(`eq_of_length_write_le`): if no property holds a quotation mark and each
paragraph in front of another block ends in a line feed (`rewritten_eq_self_iff`).

A body with a line feed behind it is read back with all its paragraphs ended
(`shape_write_lineFeed`).  Behind metadata that line feed is taken away again,
since a body that was read there is written without a blank at an end
(`trim_write_read`).
-/
import Formdoc.Proofs.Body.Rewritten
import Mathlib.Data.List.Forall2

namespace Formdoc

open Text

/-! ### Texts of blocks -/

theorem Component.write_unplaced (c : Component) : c.unplaced.write = c.write := rfl

theorem Inline.write_unplaced (i : Inline) : i.unplaced.write = i.write := by
  cases i <;> rfl

namespace Block

theorem write_unplaced (b : Block) : b.unplaced.write = b.write := by
  have hmap (is : List Inline) :
      (is.map Inline.unplaced).flatMap Inline.write = is.flatMap Inline.write := by
    rw [List.flatMap_map]
    exact congrArg (List.flatMap · is) (funext Inline.write_unplaced)
  cases b with
  | heading level children p => rw [unplaced, write, write, hmap]
  | paragraph children p => rw [unplaced, write, write, hmap]
  | component c => exact c.write_unplaced

/-- The second block is the first one, or is written as a longer text. -/
def Grows (b c : Block) : Prop :=
  c = b ∨ b.write.length < c.write.length

theorem Grows.trans {b c d : Block} (hbc : Grows b c) (hcd : Grows c d) : Grows b d := by
  rcases hbc with rfl | hbc
  · exact hcd
  · rcases hcd with rfl | hcd
    · exact .inr hbc
    · exact .inr (hbc.trans hcd)

end Block

theorem Property.requoted_eq_or_length_lt (key : Text) (v : Property) :
    v.requoted = v ∨ (v.write key).length < (v.requoted.write key).length := by
  cases v with
  | text s =>
    by_cases h : '"' ∈ s
    · right
      rw [requoted, Tag.requote, if_pos h]
      simp [write]
    · exact .inl ((requoted_eq_self_iff rfl).2 h)
  | number x => exact .inl rfl
  | bool b => exact .inl rfl

/-- Quotation marks around values make a tag longer. -/
theorem Component.requoted_eq_or_length_lt (c : Component) :
    c.requoted = c ∨ c.write.length < c.requoted.write.length := by
  by_contra h
  rw [not_or, Nat.not_lt] at h
  -- The properties of the longer tag would be no longer.
  have hlen (c : Component) : c.write.length =
      c.name.length + (c.props.entries.map fun e => (e.2.write e.1).length).sum + 7 := by
    simp [write, openMark, closeMark, List.length_flatMap]
    omega
  have hle := h.2
  rw [hlen, hlen] at hle
  refine h.1 ?_
  have hprops : c.requoted.props.entries = c.props.entries := by
    refine eq_of_sum_le (w := fun e => (e.2.write e.1).length) ?_ (Nat.le_of_add_le_add_left
      (Nat.le_of_add_le_add_right hle))
    refine List.forall₂_map_right_iff.2 (List.forall₂_same.2 fun e _ => ?_)
    exact (Property.requoted_eq_or_length_lt e.1 e.2).imp_left fun he => by rw [he]
  rw [requoted, show c.props.mapValues Property.requoted = c.props from OrderedMap.ext hprops]

namespace Block

theorem grows_requoted (b : Block) : Grows b b.requoted := by
  cases b with
  | heading level children p => exact .inl rfl
  | paragraph children p => exact .inl rfl
  | component c => exact c.requoted_eq_or_length_lt.imp_left (congrArg component)

theorem Sound.write_ne_nil {last : Bool} {b : Block} (h : b.Sound last) : b.write ≠ [] := by
  cases b with
  | heading level children p => simp [write]
  | paragraph children p =>
    obtain ⟨ls, l, hw, -, hl, -⟩ := exists_lines h
    have hne : l ≠ [] := by
      rintro rfl
      exact hl.not_blank rfl
    rw [hw]
    simp [hne]
  | component c => simp [write, Component.write, openMark]

theorem Sound.grows_ended {last : Bool} {b : Block} (h : b.Sound last) : Grows b b.ended :=
  h.write_ended.imp_right fun hw => by simp [hw]

/-- A tidy block comes back as it is exactly if no value in it holds a quotation mark. -/
theorem Tidy.requoted_eq_self_iff {b : Block} (h : b.Tidy) :
    b.requoted = b ↔ ∀ c ∈ b.components, c.Unquoted := by
  cases b with
  | heading level children p => rw [h.1]; simp [requoted]
  | paragraph children p => rw [h.1]; simp [requoted]
  | component c =>
    rw [requoted, component.injEq, Component.Legible.requoted_eq_self_iff h]
    simp [components]

theorem ended_requoted_eq_self_iff {b : Block} :
    b.ended.requoted = b ↔ b.requoted = b ∧ b.ended = b := by
  cases b with
  | heading level children p => simp [ended, requoted]
  | paragraph children p => simp [ended, requoted]
  | component c => simp [ended]

end Block

namespace Body

theorem write_map_unplaced (bs : List Block) : write (bs.map Block.unplaced) = write bs := by
  rw [write, List.map_map]
  exact congrArg (fun f => separator.intercalate (bs.map f)) (funext Block.write_unplaced)

/-- Bodies of the same shape are written alike. -/
theorem write_eq_of_unplaced {bs cs : List Block}
    (h : bs.map Block.unplaced = cs.map Block.unplaced) : write bs = write cs := by
  rw [← write_map_unplaced, h, write_map_unplaced]

/-! ### Bodies that grow -/

theorem eq_of_length_write_le {bs cs : List Block} (h : List.Forall₂ Block.Grows bs cs)
    (hle : (write cs).length ≤ (write bs).length) : cs = bs := by
  cases h with
  | nil => rfl
  | @cons b c bs cs hbc htail =>
    have hsum (d : Block) (ds : List Block) : (write (d :: ds)).length + separator.length =
        ((d :: ds).map fun b => b.write.length + separator.length).sum := by
      rw [write, length_intercalate _ (by simp), List.map_map]
      rfl
    refine eq_of_sum_le (w := fun b => b.write.length + separator.length) ?_ ?_
    · refine (List.Forall₂.cons hbc htail).imp fun _ _ => Or.imp_right fun hlt => ?_
      exact Nat.add_lt_add_right hlt _
    · rw [← hsum, ← hsum]
      exact Nat.add_le_add_right hle _

section Sound

variable {bs : List Block} (h : ∀ b ∈ bs, ∃ last, b.Sound last)

include h

theorem forall₂_grows_rewritten : List.Forall₂ Block.Grows bs (rewritten bs) := by
  induction bs with
  | nil => exact .nil
  | cons b bs ih =>
    obtain ⟨last, hb⟩ := h b List.mem_cons_self
    cases bs with
    | nil => exact .cons b.grows_requoted .nil
    | cons c cs =>
      exact .cons (hb.grows_ended.trans (Block.grows_requoted _))
        (ih fun d hd => h d (List.mem_cons_of_mem _ hd))

theorem forall₂_grows_ended :
    List.Forall₂ Block.Grows bs (bs.map fun b => b.ended.requoted) := by
  refine List.forall₂_map_right_iff.2 (List.forall₂_same.2 fun b hb => ?_)
  obtain ⟨last, hs⟩ := h b hb
  exact hs.grows_ended.trans (Block.grows_requoted _)

theorem tidy_of_sound : ∀ b ∈ bs, b.Tidy := fun b hb => by
  obtain ⟨last, hs⟩ := h b hb
  exact hs.tidy

theorem requoted_eq_self_iff :
    (∀ b ∈ bs, b.requoted = b) ↔ ∀ c ∈ componentsOf bs, c.Unquoted := by
  rw [componentsOf, List.forall_mem_flatMap]
  exact forall₂_congr fun b hb => (tidy_of_sound h b hb).requoted_eq_self_iff

/-- There is nothing to change in a body exactly if no property holds a quotation mark and each
paragraph in front of another block ends in a line feed. -/
theorem rewritten_eq_self_iff :
    rewritten bs = bs ↔
      (∀ c ∈ componentsOf bs, c.Unquoted) ∧ ∀ b ∈ bs.dropLast, b.ended = b := by
  rw [← requoted_eq_self_iff h]
  clear h
  induction bs with
  | nil => simp [rewritten]
  | cons b bs ih =>
    cases bs with
    | nil => simp [rewritten]
    | cons c cs =>
      rw [rewritten, List.cons.injEq, ih, Block.ended_requoted_eq_self_iff,
        List.dropLast_cons_cons]
      simp only [List.forall_mem_cons]
      tauto

/-- The same for a body with a line feed behind it. -/
theorem ended_eq_self_iff :
    (bs.map fun b => b.ended.requoted) = bs ↔
      (∀ c ∈ componentsOf bs, c.Unquoted) ∧ ∀ b ∈ bs, b.ended = b := by
  rw [← requoted_eq_self_iff h, ← forall₂_and]
  conv_lhs => rhs; rw [← List.map_id bs]
  rw [List.map_inj_left]
  exact forall₂_congr fun b _ => Block.ended_requoted_eq_self_iff

/-- A body with an empty line, or nothing, behind a line feed is read back with a line feed at the
end of all its paragraphs. -/
theorem shape_ended_write_append {x : Text} (hx : x = [] ∨ x.head? = some '\n') :
    shape (write bs ++ '\n' :: x) =
      (bs.map fun b => b.ended.requoted).map Block.unplaced ++ shape x := by
  induction bs with
  | nil =>
    rw [write_nil, List.nil_append, shape_lineFeed]
    rfl
  | cons b bs ih =>
    obtain ⟨last, hb⟩ := h b List.mem_cons_self
    cases bs with
    | nil =>
      rw [write_singleton, shape_ended_append hb hx]
      rfl
    | cons c cs =>
      rw [write_cons_cons, List.append_assoc, List.cons_append, shape_ended_append hb (.inr rfl),
        List.cons_append, shape_lineFeed, ih fun d hd => h d (List.mem_cons_of_mem _ hd)]
      rfl

/-- A body with a line feed behind it is read back with a line feed at the end of all its
paragraphs. -/
theorem shape_write_lineFeed :
    shape (write bs ++ ['\n']) = (bs.map fun b => b.ended.requoted).map Block.unplaced := by
  rw [shape_ended_write_append h (.inl rfl), shape_nil, List.append_nil]

/-- A line feed behind a body brings in no error. -/
theorem errors_write_lineFeed : (read (write bs ++ ['\n'])).2 = [] := by
  have htidy := tidy_of_sound h
  have htags : tagsOf (write bs ++ ['\n']) = tagsOf (write bs) := by
    rw [tagsOf_append (terminated_write htidy) (by decide) (by decide),
      tagsOf_of_not_open (s := ['\n']) (by decide), List.append_nil]
  rw [errors_read_eq_nil_iff, htags, ← errors_read_eq_nil_iff]
  exact errors_write_of_tidy htidy

/-- Only the empty body is written as the empty text. -/
theorem write_eq_nil_iff : write bs = [] ↔ bs = [] := by
  refine ⟨fun hnil => ?_, fun hnil => hnil ▸ write_nil⟩
  cases bs with
  | nil => rfl
  | cons b bs =>
    obtain ⟨last, hb⟩ := h b List.mem_cons_self
    have hhead := head?_write_cons hb.write_ne_nil bs
    rw [hnil] at hhead
    exact absurd (List.head?_eq_none_iff.1 hhead.symm) hb.write_ne_nil

end Sound

/-! ### The end of a written body -/

/-- The last block stands at the end of the text, behind a line feed if anything is in front. -/
theorem exists_write_concat (bs : List Block) (b : Block) :
    ∃ s, write (bs ++ [b]) = s ++ b.write ∧ (s = [] ∨ s.getLast? = some '\n') := by
  induction bs with
  | nil => exact ⟨[], write_singleton b, .inl rfl⟩
  | cons c bs ih =>
    obtain ⟨s, hs, hlast⟩ := ih
    obtain ⟨d, ds, hds⟩ : ∃ d ds, bs ++ [b] = d :: ds := List.exists_cons_of_ne_nil (by simp)
    refine ⟨c.write ++ '\n' :: '\n' :: s, ?_, .inr ?_⟩
    · rw [List.cons_append, hds, write_cons_cons, ← hds, hs]
      simp
    · rw [List.getLast?_append_of_ne_nil _ (by simp), List.getLast?_cons_cons]
      rcases hlast with rfl | hlast
      · rfl
      · rw [List.getLast?_cons, hlast]
        rfl

/-- A body whose paragraphs are ended does not end in a fence on a line of its own. -/
theorem write_ne_append_fence {bs : List Block} (h : ∀ b ∈ bs, b.Sound false) (s : Text) :
    write bs ≠ s ++ '\n' :: fence := by
  intro heq
  obtain ⟨cs, b, rfl⟩ : ∃ cs b, bs = cs ++ [b] := by
    rcases List.eq_nil_or_concat bs with rfl | ⟨cs, b, rfl⟩
    · simp [write_nil] at heq
    · exact ⟨cs, b, List.concat_eq_append ..⟩
  have hb := h b (by simp)
  obtain ⟨t, ht, htlast⟩ := exists_write_concat cs b
  rw [ht] at heq
  have hlast : b.write.getLast? = some '-' := by
    rw [← List.getLast?_append_of_ne_nil t hb.write_ne_nil, heq]
    exact List.getLast?_append_of_ne_nil _ (by simp)
  cases b with
  | heading level children p =>
    obtain ⟨hl, -, title, q, rfl, htitle⟩ := hb
    have hmem : '\n' ∉ List.replicate level '#' ++ ' ' :: title :=
      Block.not_mem_write_heading htitle
    have hhead := Markdown.head?_marks hl (' ' :: title)
    rw [Block.write_heading] at heq
    generalize List.replicate level '#' ++ ' ' :: title = w at heq hmem hhead
    -- The fence would be the line of the heading, which starts with no hyphen.
    have hlines := congrArg lines heq
    rw [lines_append_cons, lines_of_not_mem (l := fence) (by decide)] at hlines
    obtain ⟨ks, hks⟩ := exists_lines_append htlast hmem
    rw [hks] at hlines
    rw [List.singleton_inj.1 (List.append_inj_right' hlines rfl)] at hhead
    exact absurd hhead (by decide)
  | paragraph children p =>
    obtain ⟨ls, l, hw, -⟩ := Block.exists_lines hb
    rw [hw, ← List.append_assoc] at hlast
    exact absurd (List.getLast?_concat.symm.trans hlast) (by decide)
  | component c => exact absurd (List.getLast?_concat.symm.trans hlast) (by decide)

/-! ### Blocks that end in no blank -/

/-- The last of the blocks is written with no blank at its end. -/
def Flush (bs : List Block) : Prop :=
  ∃ cs b c, bs = cs ++ [b] ∧ b.write.getLast? = some c ∧ isBlank c = false

theorem flush_singleton {b : Block} {c : Char} (h : b.write.getLast? = some c)
    (hc : isBlank c = false) : Flush [b] :=
  ⟨[], b, c, rfl, h, hc⟩

theorem Flush.append {bs : List Block} (h : Flush bs) (cs : List Block) : Flush (cs ++ bs) := by
  obtain ⟨ds, b, c, rfl, hb⟩ := h
  exact ⟨cs ++ ds, b, c, (List.append_assoc ..).symm, hb⟩

/-- What is written of the blocks ends as the last of them does. -/
theorem Flush.isBlank_getLast_write {bs : List Block} (h : Flush bs) {c : Char}
    (hc : (write bs).getLast? = some c) : isBlank c = false := by
  obtain ⟨cs, b, d, rfl, hd, hblank⟩ := h
  have hne : b.write ≠ [] := by
    intro hnil
    rw [hnil] at hd
    cases hd
  have hend : ((cs ++ [b]).map Block.write).getLast? = some b.write := by simp
  rw [write, getLast?_intercalate _ hend hne, hd, Option.some_inj] at hc
  rw [← hc, hblank]

end Body

namespace Markdown

/-- Prose at the front of lines that are not all prose leaves the last line. -/
theorem exists_dropWhile_concat {p : Text → Bool} {ls : List Text} {l : Text}
    (h : ¬ ∀ m ∈ ls ++ [l], p m = true) :
    ∃ ks, (ls ++ [l]).dropWhile p = ks ++ [l] ∧ ks.length ≤ ls.length := by
  obtain ⟨ks, k, hks⟩ := (List.eq_nil_or_concat ((ls ++ [l]).dropWhile p)).resolve_left fun hnil =>
    h (List.dropWhile_eq_nil_iff.1 hnil)
  rw [List.concat_eq_append] at hks
  obtain ⟨gs, hgs⟩ := List.dropWhile_suffix p (l := ls ++ [l])
  rw [hks, ← List.append_assoc] at hgs
  obtain ⟨rfl, hk⟩ := List.append_inj' hgs rfl
  rw [List.singleton_inj.1 hk] at hks
  exact ⟨ks, hks, (List.suffix_append gs ks).length_le⟩

section Flush

variable {l : Text} {c : Char} (hl : l.getLast? = some c) (hc : isBlank c = false)

include hl hc

/-- A paragraph ends as its last line does. -/
theorem flush_paragraph (ls : List Text) :
    Body.Flush [.paragraph ((ls ++ [l]).map fun s => .text s Position.first) Position.first] := by
  have hne : l ≠ [] := by
    rintro rfl
    cases hl
  refine Body.flush_singleton (c := c) ?_ hc
  rw [Block.write, List.flatMap_map, List.flatMap_append, List.flatMap_singleton]
  exact (List.getLast?_append_of_ne_nil _ hne).trans hl

theorem flush_shapes_singleton : Body.Flush (shapes [l]) := by
  cases hk : kind l with
  | blank =>
    rcases kind_cases l with ⟨ht, -⟩ | ⟨_, _, _, -, -, -, -, h⟩ | ⟨-, -, h⟩
    · rw [trim_eq_nil_iff.1 ht c (List.mem_of_getLast? hl)] at hc
      cases hc
    · simp [h] at hk
    · simp [h] at hk
  | heading level title =>
    obtain ⟨hne, htrim⟩ := trim_title hk
    have hlast := List.getLast?_eq_some_getLast hne
    rw [shapes_heading hk, shapes_nil]
    refine Body.flush_singleton ?_ ((trim_eq_self_iff.1 htrim).2 _ hlast)
    rw [Block.write_heading, List.getLast?_append_of_ne_nil _ (by simp),
      List.getLast?_cons_of_ne_nil hne, hlast]
  | prose =>
    rw [shapes_prose hk, List.dropWhile_nil, shapes_nil]
    exact flush_paragraph hl hc []

/-- Lines of which the last one ends in no blank give blocks of which the last one ends in none. -/
theorem flush_shapes_concat (ls : List Text) : Body.Flush (shapes (ls ++ [l])) := by
  induction hn : ls.length using Nat.strongRecOn generalizing ls with
  | _ n ih =>
    subst hn
    cases ls with
    | nil => exact flush_shapes_singleton hl hc
    | cons k ks =>
      rw [List.cons_append]
      cases hk : kind k with
      | blank =>
        rw [shapes_blank hk]
        exact ih ks.length (by simp) ks rfl
      | heading level title =>
        rw [shapes_heading hk]
        exact (ih ks.length (by simp) ks rfl).append [_]
      | prose =>
        rw [shapes_prose hk]
        by_cases hall : ∀ m ∈ ks ++ [l], isProseLine m = true
        · rw [List.dropWhile_eq_nil_iff.2 hall, List.takeWhile_eq_self_iff.2 hall, shapes_nil]
          exact flush_paragraph hl hc (k :: ks)
        · -- The last line is behind the paragraph.
          obtain ⟨fs, hfs, hlen⟩ := exists_dropWhile_concat hall
          rw [hfs]
          exact (ih fs.length (Nat.lt_succ_of_le hlen) fs rfl).append [_]

end Flush

end Markdown

namespace Body

theorem exists_readTag (s : Text) :
    ∃ content closing r, Token.readTag s = (.tag content closing, r) := by
  unfold Token.readTag
  split <;> exact ⟨_, _, _, rfl⟩

/-- A text that ends in no blank gives blocks of which the last one ends in none. -/
theorem flush_shapes_pieces {s : Text} {c : Char} (hl : s.getLast? = some c)
    (hc : isBlank c = false) : Flush (Markdown.shapes (pieces s)) := by
  obtain ⟨ls, l, hls⟩ := (List.eq_nil_or_concat (pieces s)).resolve_left fun hnil => by
    rw [← flatten_pieces s, hnil] at hl
    cases hl
  rw [List.concat_eq_append] at hls
  have hne : l ≠ [] := ne_nil_of_mem_pieces (s := s) (by simp [hls])
  rw [← flatten_pieces s, hls, List.flatten_append, List.flatten_singleton,
    List.getLast?_append_of_ne_nil _ hne] at hl
  rw [hls]
  exact Markdown.flush_shapes_concat hl hc ls

/-- The last block of a body that ends in no blank, and has no error, ends in none. -/
theorem flush_shape {s : Text} {c : Char} (hl : s.getLast? = some c) (hc : isBlank c = false)
    (herr : ∀ t ∈ tagsOf s, words t.1 ≠ []) : Flush (shape s) := by
  induction hn : s.length using Nat.strongRecOn generalizing s with
  | _ n ih =>
    subst hn
    obtain ⟨t, r, rfl, ht, hr⟩ := exists_run s
    rw [shape_run_append ht hr]
    rw [← tagsOf_readRun, readRun_append ht hr] at herr
    rcases hr with rfl | ⟨r, rfl⟩
    · -- The last line is part of the last block.
      rw [shape_nil, List.append_nil]
      rw [List.append_nil] at hl
      exact flush_shapes_pieces hl hc
    · obtain ⟨content, closing, q, hq⟩ := exists_readTag r
      have htags : tagsOf (openMark ++ r) = (content, closing) :: tagsOf q := by
        unfold tagsOf
        rw [tokens_open, hq]
        rfl
      rw [htags, List.forall_mem_cons] at herr
      obtain ⟨d, hd⟩ : ∃ d, Tag.named? content = some d := by
        rw [← Option.isSome_iff_exists, ← Option.not_isNone, Tag.named?, Tag.isNone_component?]
        simpa using herr.1
      have hraw := Token.append_readTag r
      rw [hq] at hraw
      rw [shape_open hq, hd]
      refine Flush.append ?_ _
      cases q with
      | nil =>
        rw [shape_nil]
        exact flush_singleton List.getLast?_concat (by decide)
      | cons e q =>
        -- What stands behind the tag ends as the whole does.
        rw [← hraw, ← List.append_assoc, List.getLast?_append_of_ne_nil _ (by simp)] at hl
        have hlen := Token.length_readTag_le r
        rw [hq] at hlen
        have hshort : (e :: q).length < (t ++ (openMark ++ r)).length := by
          simp only [List.length_append, openMark, List.length_cons, List.length_nil] at hlen ⊢
          omega
        exact (ih (e :: q).length hshort hl herr.2 rfl).append [_]

/-- A body without errors that has no blank at an end is written again without one. -/
theorem trim_write_read {s : Text} (hs : trim s = s) (herr : (read s).2 = []) :
    trim (write (read s).1) = write (read s).1 := by
  obtain ⟨hhead, hlast⟩ := trim_eq_self_iff.1 hs
  refine trim_eq_self_iff.2 ⟨isBlank_head_write_read hhead herr, fun c hc => ?_⟩
  cases hl : s.getLast? with
  | none =>
    rw [List.getLast?_eq_none_iff.1 hl, read_nil] at hc
    cases hc
  | some d =>
    have hflush : Flush (shape s) :=
      flush_shape hl (hlast d hl) (errors_read_eq_nil_iff.1 herr)
    rw [← write_map_unplaced] at hc
    exact hflush.isBlank_getLast_write hc

end Body

end Formdoc
