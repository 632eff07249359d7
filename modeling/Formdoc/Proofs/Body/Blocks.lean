/-
Blocks that are read back.

The blocks of a run of text, without their places, are a function of its lines
(`Markdown.shapes`), and those of a text are those of its first run, followed by
those of the rest (`shape_run_append`).  So a line feed behind a written block
separates it from what follows, and the block is read back
(`shape_sound_append`), if it is `Sound`: a heading of one line, a paragraph of
lines, or a component with a legible tag.  Quotation marks in the properties of
a component may still multiply; a `Canonical` block has none there.
-/
import Formdoc.Proofs.Body.Written

namespace Formdoc

open Text

/-! ### Lines as blocks -/

namespace Markdown

/-- The blocks that lines form, without their places. -/
def shapes (ls : List Text) : List Block :=
  (group (ls.map fun l => ⟨l, Position.first⟩)).map Block.unplaced

/-- The line is a line of a paragraph. -/
def isProseLine (l : Text) : Bool :=
  kind l == .prose

theorem shapes_nil : shapes [] = [] := by
  rw [shapes, List.map_nil, group, List.map_nil]

theorem shapes_blank {l : Text} (h : kind l = .blank) (ls : List Text) :
    shapes (l :: ls) = shapes ls := by
  rw [shapes, List.map_cons, group]
  simp only [h]
  rfl

theorem shapes_heading {l title : Text} {level : Nat} (h : kind l = .heading level title)
    (ls : List Text) :
    shapes (l :: ls) = .heading level [.text title Position.first] Position.first :: shapes ls := by
  rw [shapes, List.map_cons, group]
  simp only [h]
  rfl

theorem shapes_prose {l : Text} (h : kind l = .prose) (ls : List Text) :
    shapes (l :: ls) =
      .paragraph ((l :: ls.takeWhile isProseLine).map fun l => .text l Position.first)
        Position.first :: shapes (ls.dropWhile isProseLine) := by
  have hp : (isProse ∘ fun l : Text => (⟨l, Position.first⟩ : Located Text)) = isProseLine := rfl
  rw [shapes, List.map_cons, group]
  simp only [h]
  rw [List.takeWhile_map, List.dropWhile_map, hp, List.map_cons, Block.unplaced, List.map_map,
    ← List.map_cons (f := fun l : Text => (⟨l, Position.first⟩ : Located Text)), List.map_map]
  rfl

/-- The blocks of lines do not depend on where the lines stand. -/
theorem map_unplaced_group (ls : List (Located Text)) :
    (group ls).map Block.unplaced = shapes (ls.map Located.value) := by
  fun_induction group ls with
  | case1 => exact shapes_nil.symm
  | case2 line rest h ih => rw [List.map_cons, shapes_blank h, ih]
  | case3 line rest level title h ih =>
    rw [List.map_cons, List.map_cons, shapes_heading h, ih]
    rfl
  | case4 line rest h ih =>
    have hp : isProseLine ∘ Located.value = isProse := rfl
    have hvalues : (line :: rest).map Located.value = line.value :: rest.map Located.value := rfl
    rw [hvalues, shapes_prose h, List.map_cons, ih, List.takeWhile_map, List.dropWhile_map, hp,
      Block.unplaced, List.map_map, ← List.map_cons (f := Located.value), List.map_map]
    rfl

/-- Lines of prose in front of other lines are a paragraph. -/
theorem shapes_prose_append {ps ls : List Text} (hne : ps ≠ []) (hps : ∀ l ∈ ps, kind l = .prose)
    (hls : ∀ l, ls.head? = some l → kind l ≠ .prose) :
    shapes (ps ++ ls) =
      .paragraph (ps.map fun l => .text l Position.first) Position.first :: shapes ls := by
  obtain ⟨p, ps, rfl⟩ := List.exists_cons_of_ne_nil hne
  have hall : ∀ l ∈ ps, isProseLine l = true := fun l hl => by
    simp [isProseLine, hps l (List.mem_cons_of_mem _ hl)]
  obtain ⟨htake, hdrop⟩ := span_append hall fun l hl => by simp [isProseLine, hls l hl]
  rw [List.cons_append, shapes_prose (hps p List.mem_cons_self), htake, hdrop]

theorem kind_lineFeed : kind ['\n'] = .blank := by
  decide +kernel

theorem shapes_lineFeed (ls : List Text) : shapes (['\n'] :: ls) = shapes ls :=
  shapes_blank kind_lineFeed ls

/-- A line feed at the end of a line makes no difference. -/
theorem kind_append_lineFeed (l : Text) : kind (l ++ ['\n']) = kind l := by
  rw [kind, kind, trim_append_blank l (by decide)]

end Markdown

/-! ### Runs and tags -/

namespace Body

/-- The blocks of a text, without their places. -/
def shape (s : Text) : List Block :=
  (read s).1.map Block.unplaced

theorem map_unplaced_blocksOf (t : Token) (p q : Position) :
    (blocksOf ⟨t, p⟩).map Block.unplaced = (blocksOf ⟨t, q⟩).map Block.unplaced := by
  cases t with
  | text s =>
    show (Markdown.group _).map Block.unplaced = (Markdown.group _).map Block.unplaced
    rw [Markdown.map_unplaced_group, Markdown.map_unplaced_group, Located.map_value_spread,
      Located.map_value_spread]
  | tag content closing =>
    have hcomp (p : Position) : (blocksOf ⟨.tag content closing, p⟩).map Block.unplaced =
        ((Tag.named? content).map Block.component).toList := by
      rw [← Tag.component?_map_unplaced content p]
      show ((Tag.component? content p).map Block.component).toList.map Block.unplaced = _
      cases Tag.component? content p <;> rfl
    rw [hcomp, hcomp]

/-- The blocks of tokens do not depend on where the tokens stand. -/
theorem shape_eq (s : Text) :
    shape s = (tokens s).flatMap fun t => (blocksOf ⟨t, Position.first⟩).map Block.unplaced := by
  have hall (p : Position) (ts : List Token) :
      ((Located.spread Token.raw p ts).flatMap blocksOf).map Block.unplaced =
        ts.flatMap fun t => (blocksOf ⟨t, Position.first⟩).map Block.unplaced := by
    induction ts generalizing p with
    | nil => rfl
    | cons t ts ih =>
      rw [Located.spread, List.flatMap_cons, List.map_append, ih, List.flatMap_cons,
        map_unplaced_blocksOf t p Position.first]
  exact hall Position.first (tokens s)

theorem shape_nil : shape [] = [] := by
  rw [shape_eq, tokens]
  rfl

/-- A tag gives the component that it names, in front of the blocks of what follows. -/
theorem shape_open {s content r : Text} {closing : Closing}
    (h : Token.readTag s = (.tag content closing, r)) :
    shape (openMark ++ s) =
      ((Tag.named? content).map Block.component).toList.map Block.unplaced ++ shape r := by
  rw [shape_eq, tokens_open, h, List.flatMap_cons, ← shape_eq]
  rfl

/-- A component in front of a text is read back as its tag names it. -/
theorem shape_write_append {c : Component} (hc : c.Legible) (x : Text) :
    shape (c.write ++ x) = .component c.requoted.unplaced :: shape x := by
  have hform : c.write ++ x = openMark ++ (c.content ++ closeMark ++ (']' :: x)) := by
    rw [Component.write_eq]
    simp
  rw [hform, shape_open (readTag_of_cutAt (hc.cutAt_content _)), hc.named?_content]
  rfl

/-- A run ends where a tag opens, or with the text. -/
theorem readRun_append {t r : Text} (ht : ¬ openMark <:+: t) (hr : r = [] ∨ openMark <+: r) :
    Token.readRun (t ++ r) = (t, r) := by
  rcases hr with rfl | ⟨r', rfl⟩
  · rw [List.append_nil, Token.readRun, cutAt_eq_none_iff.2 ht]
  · rw [Token.readRun, ← List.append_assoc, openMark, cutAt_append_pair (by decide) ht]

/-- A run of text in front of a tag, or of nothing, is one token. -/
theorem tokens_run_append {c : Char} {t r : Text} (ht : ¬ openMark <:+: c :: t)
    (hr : r = [] ∨ openMark <+: r) : tokens (c :: t ++ r) = .text (c :: t) :: tokens r := by
  have hhead : r.head? ≠ some '%' := by
    rcases hr with rfl | ⟨r', rfl⟩ <;> simp [openMark]
  rw [List.cons_append, tokens_run (not_prefix_cons_append (fun hp => ht hp.isInfix) hhead),
    readRun_append (fun h => ht (List.infix_cons h)) hr]

/-- A run of text in front of a tag, or of nothing, gives the blocks of its lines. -/
theorem shape_run_append {t r : Text} (ht : ¬ openMark <:+: t) (hr : r = [] ∨ openMark <+: r) :
    shape (t ++ r) = Markdown.shapes (pieces t) ++ shape r := by
  cases t with
  | nil => rw [pieces, Markdown.shapes_nil]; rfl
  | cons c t =>
    rw [shape_eq, tokens_run_append ht hr, List.flatMap_cons, ← shape_eq]
    congr 1
    show (Markdown.group _).map Block.unplaced = _
    rw [Markdown.map_unplaced_group, Located.map_value_spread]

/-- Each text is a run in front of a tag, or of nothing. -/
theorem exists_run (s : Text) :
    ∃ t r, s = t ++ r ∧ ¬ openMark <:+: t ∧ (r = [] ∨ openMark <+: r) := by
  cases h : cutAt openMark s with
  | none => exact ⟨s, [], (List.append_nil s).symm, cutAt_eq_none_iff.1 h, .inl rfl⟩
  | some p =>
    refine ⟨p.1, openMark ++ p.2, ?_, not_infix_of_cutAt (by decide) h,
      .inr (List.prefix_append ..)⟩
    rw [← List.append_assoc]
    exact eq_of_cutAt h

/-- Text without a tag that a line feed separates from what follows gives a block of its own, if
its lines do. -/
theorem shape_append_of_pieces {w : Text} (hw : ¬ openMark <:+: w) {b : Block}
    (hb : ∀ t, Markdown.shapes (pieces (w ++ '\n' :: t)) = b :: Markdown.shapes (pieces t))
    (x : Text) : shape (w ++ '\n' :: x) = b :: shape x := by
  -- The run in front goes on to the first tag of what follows.
  obtain ⟨t, r, rfl, ht, hr⟩ := exists_run x
  have hrun : ¬ openMark <:+: w ++ '\n' :: t := by
    rw [infix_append_cons_iff (by decide) (by decide)]
    exact not_or.2 ⟨hw, ht⟩
  have hform : w ++ '\n' :: (t ++ r) = (w ++ '\n' :: t) ++ r := by simp
  rw [hform, shape_run_append hrun hr, shape_run_append ht hr, hb]
  rfl

theorem shape_lineFeed (x : Text) : shape ('\n' :: x) = shape x := by
  obtain ⟨t, r, rfl, ht, hr⟩ := exists_run x
  have hrun : ¬ openMark <:+: '\n' :: t := by
    rwa [infix_cons_iff_of_not_mem (by decide) (by decide)]
  rw [← List.cons_append, shape_run_append hrun hr, shape_run_append ht hr, pieces_lineFeed_cons,
    Markdown.shapes_lineFeed]

end Body

/-! ### Canonical blocks -/

namespace Markdown

theorem not_headingShaped_of_head {s : Text} {c : Char} (h : s.head? = some c) (hc : c ≠ '#') :
    ¬ HeadingShaped s := by
  rintro ⟨n, d, r, hn, -, -, rfl⟩
  rw [head?_marks hn] at h
  exact hc (Option.some_inj.1 h).symm

/-- A line that can stand in a paragraph. -/
structure ProseLine (l : Text) : Prop where
  not_lineFeed : '\n' ∉ l
  not_open : ¬ openMark <:+: l
  not_blank : trim l ≠ []
  not_heading : ¬ HeadingShaped (trim l)

/-- A text that can stand in a heading. -/
structure Title (s : Text) : Prop where
  ne_nil : s ≠ []
  trim_eq : trim s = s
  not_lineFeed : '\n' ∉ s
  not_open : ¬ openMark <:+: s

theorem kind_of_proseLine {l : Text} (h : ProseLine l) : kind l = .prose :=
  kindOfTrimmed_of_not_headingShaped h.not_blank h.not_heading

theorem trim_heading {title : Text} (h : Title title) {level : Nat} (hl : 1 ≤ level) :
    trim (List.replicate level '#' ++ ' ' :: title) = List.replicate level '#' ++ ' ' :: title := by
  refine trim_eq_self_iff.2 ⟨fun c hc => ?_, fun c hc => ?_⟩
  · rw [head?_marks hl] at hc
    obtain rfl : '#' = c := Option.some_inj.1 hc
    decide
  · rw [List.getLast?_append_of_ne_nil _ (by simp), List.getLast?_cons_of_ne_nil h.ne_nil] at hc
    exact (trim_eq_self_iff.1 h.trim_eq).2 c hc

theorem kind_heading {title : Text} (h : Title title) {level : Nat} (hl : 1 ≤ level)
    (hm : level ≤ maxLevel) :
    kind (List.replicate level '#' ++ ' ' :: title) = .heading level title := by
  have hstart : trimStart title = title := by
    obtain ⟨c, s, rfl⟩ := List.exists_cons_of_ne_nil h.ne_nil
    have := (trim_eq_self_iff.1 h.trim_eq).1 c rfl
    simp [trimStart, this]
  rw [kind, trim_heading h hl, kindOfTrimmed_marks hl hm (by decide), hstart]

end Markdown

/-- The inline is a line of prose with the given ending. -/
def Inline.Line (ending : Text) (i : Inline) : Prop :=
  ∃ l p, i = .text (l ++ ending) p ∧ Markdown.ProseLine l

/-- What ends the last line of a block: nothing in the last block of a body, else a line feed. -/
def Block.ending (last : Bool) : Text :=
  if last then [] else ['\n']

/-- A block that is read back as it is written: a heading of one line, a paragraph of lines, each of
which ends in a line feed but for the last of the last block, or a component with a legible tag. -/
def Block.Canonical (last : Bool) : Block → Prop
  | heading level children _ =>
    1 ≤ level ∧ level ≤ Markdown.maxLevel ∧ ∃ s p, children = [.text s p] ∧ Markdown.Title s
  | paragraph children _ =>
    ∃ front final, children = front ++ [final] ∧ (∀ i ∈ front, i.Line ['\n']) ∧
      final.Line (ending last)
  | component c => c.Legible ∧ c.Unquoted

namespace Inline

theorem Line.write_eq {ending : Text} {i : Inline} (h : i.Line ending) :
    ∃ l, i.write = l ++ ending ∧ Markdown.ProseLine l ∧
      i.unplaced = .text i.write Position.first := by
  obtain ⟨l, p, rfl, hl⟩ := h
  exact ⟨l, rfl, hl, rfl⟩

end Inline

namespace Block

/-- The lines of a paragraph but for the last one. -/
theorem exists_lines_of_front {is : List Inline} (h : ∀ i ∈ is, i.Line ['\n']) :
    ∃ ls : List Text, is.map Inline.write = ls.map (· ++ ['\n']) ∧
      (∀ k ∈ ls, Markdown.ProseLine k) ∧
      is.map Inline.unplaced = (is.map Inline.write).map fun s => .text s Position.first := by
  induction is with
  | nil => exact ⟨[], rfl, by simp, rfl⟩
  | cons i is ih =>
    obtain ⟨k, hk, hline, hun⟩ := (h i List.mem_cons_self).write_eq
    obtain ⟨ls, hw, hls, hmap⟩ := ih fun j hj => h j (List.mem_cons_of_mem _ hj)
    refine ⟨k :: ls, by rw [List.map_cons, List.map_cons, hk, hw],
      List.forall_mem_cons.2 ⟨hline, hls⟩, ?_⟩
    rw [List.map_cons, List.map_cons, List.map_cons, hun, hmap]

/-- A canonical paragraph, as its lines. -/
theorem exists_lines {last : Bool} {children : List Inline} {p : Position}
    (h : (paragraph children p).Canonical last) :
    ∃ (ls : List Text) (l : Text),
      (paragraph children p).write = ofLines ls ++ (l ++ ending last) ∧
      (∀ k ∈ ls, Markdown.ProseLine k) ∧ Markdown.ProseLine l ∧
      (paragraph children p).unplaced = .paragraph
        ((ls.map (· ++ ['\n']) ++ [l ++ ending last]).map fun s => .text s Position.first)
        Position.first := by
  obtain ⟨front, final, rfl, hfront, hfinal⟩ := h
  obtain ⟨l, hl, hline, hun⟩ := hfinal.write_eq
  obtain ⟨ls, hw, hls, hmap⟩ := exists_lines_of_front hfront
  refine ⟨ls, l, ?_, hls, hline, ?_⟩
  · rw [write, List.flatMap_def, List.map_append, List.flatten_append, hw, List.map_singleton, hl,
      ← List.flatMap_def]
    simp [ofLines, ending]
  · rw [unplaced, List.map_append, hmap, hw, List.map_singleton, hun, hl, List.map_append,
      List.map_singleton]

theorem not_mem_write_heading {level : Nat} {s : Text} (h : Markdown.Title s) :
    '\n' ∉ List.replicate level '#' ++ ' ' :: s := by
  intro hm
  rcases List.mem_append.1 hm with hm | hm
  · exact absurd (List.eq_of_mem_replicate hm) (by decide)
  · rcases List.mem_cons.1 hm with hm | hm
    · exact absurd hm (by decide)
    · exact h.not_lineFeed hm

/-- No tag opens in lines, if none opens in one of them. -/
theorem not_open_lines {ls : List Text} (hls : ∀ k ∈ ls, ¬ openMark <:+: k) {x : Text}
    (hx : ¬ openMark <:+: x) : ¬ openMark <:+: ofLines ls ++ x := by
  induction ls with
  | nil => exact hx
  | cons l ls ih =>
    have hform : ofLines (l :: ls) ++ x = l ++ '\n' :: (ofLines ls ++ x) := by simp [ofLines]
    rw [hform, infix_append_cons_iff (by decide) (by decide)]
    exact not_or.2 ⟨hls l List.mem_cons_self, ih fun k hk => hls k (List.mem_cons_of_mem _ hk)⟩

/-- A block that is read back, but for quotation marks in its properties: canonical, or a component
with any legible tag. -/
def Sound (last : Bool) : Block → Prop
  | component c => c.Legible
  | b => b.Canonical last

theorem Canonical.sound {last : Bool} {b : Block} (h : b.Canonical last) : b.Sound last := by
  cases b with
  | heading level children p => exact h
  | paragraph children p => exact h
  | component c => exact h.1

/-- Sound blocks are tidy. -/
theorem Sound.tidy {last : Bool} {b : Block} (h : b.Sound last) : b.Tidy := by
  cases b with
  | heading level children p =>
    obtain ⟨-, -, s, q, rfl, ht⟩ := h
    refine ⟨rfl, ?_⟩
    rw [Block.write_heading, infix_append_cons_iff (by decide) (by decide)]
    refine not_or.2 ⟨fun hi => ?_, ht.not_open⟩
    have := List.eq_of_mem_replicate (hi.subset (List.mem_cons_self (a := '[')))
    exact absurd this (by decide)
  | paragraph children p =>
    obtain ⟨ls, l, hw, hls, hl, -⟩ := exists_lines h
    obtain ⟨front, final, rfl, hfront, hfinal⟩ := h
    refine ⟨List.filterMap_eq_nil_iff.2 fun i hi => ?_, ?_⟩
    · rcases List.mem_append.1 hi with hi | hi
      · obtain ⟨k, q, rfl, -⟩ := hfront i hi
        rfl
      · obtain rfl := List.mem_singleton.1 hi
        obtain ⟨k, q, rfl, -⟩ := hfinal
        rfl
    · rw [hw]
      refine not_open_lines (fun k hk => (hls k hk).not_open) ?_
      cases last with
      | true =>
        rw [ending, if_pos rfl, List.append_nil]
        exact hl.not_open
      | false =>
        rw [ending, if_neg (by simp), infix_append_cons_iff (by decide) (by decide)]
        exact not_or.2 ⟨hl.not_open, by decide⟩
  | component c => exact h

/-- A block as it is read from the text in which it is written. -/
def requoted : Block → Block
  | component c => component c.requoted
  | b => b

end Block

namespace Body

open Markdown

theorem kind_append_ending {l : Text} (h : ProseLine l) (last : Bool) :
    kind (l ++ Block.ending last) = .prose := by
  cases last with
  | true =>
    rw [Block.ending, if_pos rfl, List.append_nil]
    exact kind_of_proseLine h
  | false =>
    rw [Block.ending, if_neg (by simp), kind_append_lineFeed]
    exact kind_of_proseLine h

theorem kind_of_mem_lines {ls : List Text} (hls : ∀ k ∈ ls, ProseLine k) (l : Text)
    (hl : l ∈ ls.map (· ++ ['\n'])) : kind l = .prose := by
  obtain ⟨k, hk, rfl⟩ := List.mem_map.1 hl
  exact kind_append_ending (hls k hk) false

theorem pieces_append_ending {l : Text} (h : ProseLine l) (last : Bool) :
    pieces (l ++ Block.ending last) = [l ++ Block.ending last] := by
  cases last with
  | true =>
    have hne : l ≠ [] := by
      rintro rfl
      exact h.not_blank rfl
    rw [Block.ending, if_pos rfl, List.append_nil]
    exact pieces_of_not_mem hne h.not_lineFeed
  | false => exact pieces_cons_append h.not_lineFeed []

/-- A sound block, separated by a line feed from what follows, is read back but for the quotation
marks. -/
theorem shape_sound_append {b : Block} (h : b.Sound false) (x : Text) :
    shape (b.write ++ '\n' :: x) = b.requoted.unplaced :: shape x := by
  have htidy := h.tidy
  cases b with
  | heading level children p =>
    obtain ⟨hl, hm, s, q, rfl, ht⟩ := h
    refine shape_append_of_pieces htidy.2 (fun t => ?_) x
    rw [Block.write_heading, pieces_cons_append (Block.not_mem_write_heading ht),
      shapes_heading (by rw [kind_append_lineFeed, kind_heading ht hl hm])]
    rfl
  | paragraph children p =>
    obtain ⟨ls, l, hw, hls, hl, hun⟩ := Block.exists_lines h
    refine shape_append_of_pieces htidy.2 (fun t => ?_) x
    have hform : (Block.paragraph children p).write ++ '\n' :: t =
        ofLines (ls ++ [l]) ++ '\n' :: t := by
      rw [hw]
      simp [ofLines, Block.ending]
    have hall : ∀ k ∈ ls ++ [l], ProseLine k := by
      intro k hk
      rcases List.mem_append.1 hk with hk | hk
      · exact hls k hk
      · exact List.mem_singleton.1 hk ▸ hl
    show _ = (Block.paragraph children p).unplaced :: _
    rw [hform, pieces_ofLines_append fun k hk => (hall k hk).not_lineFeed, pieces_lineFeed_cons,
      shapes_prose_append (by simp) (kind_of_mem_lines hall), shapes_lineFeed, hun,
      List.map_append]
    · rfl
    · intro k hk
      obtain rfl := Option.some_inj.1 hk
      rw [kind_lineFeed]
      simp
  | component c => rw [Block.write, shape_write_append h, shape_lineFeed]; rfl

/-- A sound block at the end of a body is read back but for the quotation marks. -/
theorem shape_sound {last : Bool} {b : Block} (h : b.Sound last) :
    shape b.write = [b.requoted.unplaced] := by
  have htidy := h.tidy
  cases b with
  | heading level children p =>
    obtain ⟨hl, hm, s, q, rfl, ht⟩ := h
    have hrun := shape_run_append htidy.2 (.inl rfl)
    rw [List.append_nil, shape_nil, List.append_nil] at hrun
    rw [hrun, Block.write_heading, pieces_of_not_mem (by simp) (Block.not_mem_write_heading ht),
      shapes_heading (kind_heading ht hl hm), shapes_nil]
    rfl
  | paragraph children p =>
    obtain ⟨ls, l, hw, hls, hl, hun⟩ := Block.exists_lines h
    have hrun := shape_run_append htidy.2 (.inl rfl)
    rw [List.append_nil, shape_nil, List.append_nil] at hrun
    have hkind : ∀ k ∈ ls.map (· ++ ['\n']) ++ [l ++ Block.ending last], kind k = .prose := by
      intro k hk
      rcases List.mem_append.1 hk with hk | hk
      · exact kind_of_mem_lines hls k hk
      · exact List.mem_singleton.1 hk ▸ kind_append_ending hl last
    show _ = [(Block.paragraph children p).unplaced]
    rw [hrun, hw, pieces_ofLines_append fun k hk => (hls k hk).not_lineFeed,
      pieces_append_ending hl, hun,
      ← List.append_nil (ls.map (· ++ ['\n']) ++ [l ++ Block.ending last]),
      shapes_prose_append (by simp) hkind (by simp), shapes_nil, List.append_nil]
  | component c =>
    have := shape_write_append h []
    rw [List.append_nil, shape_nil] at this
    exact this

end Body

end Formdoc
