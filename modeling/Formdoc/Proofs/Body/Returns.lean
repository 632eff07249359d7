/-
Bodies whose line feeds have carriage returns in front of them.

The tokens of such a body are those of the body without the carriage returns, each
with the carriage returns of its own text (`tokens_withReturns`), and stand at the
same places.  A carriage return at the end of a line is a blank there, so that each
line is of the kind that it was (`kind_withReturns`), and those in a tag are blanks
between its words.

So the blocks are the same at the same places, and so are the errors; only the
lines of paragraphs, which stay as they are written, have carriage returns in
front of their line feeds (`read_withReturns`).
-/
import Formdoc.Proofs.Body.Places
import Formdoc.Proofs.Body.Written
import Formdoc.Proofs.Regions.Returns

namespace Formdoc

open Text

/-! ### Parts of a body with changed texts -/

/-- The inline with a function applied to its text. -/
def Inline.mapText (f : Text → Text) : Inline → Inline
  | text s p => text (f s) p
  | component c => component c

/-- The block with a function applied to its texts, if it is a paragraph. -/
def Block.mapProse (f : Text → Text) : Block → Block
  | paragraph children p => paragraph (children.map (Inline.mapText f)) p
  | b => b

theorem Inline.mapText_mapText (f g : Text → Text) (i : Inline) :
    (i.mapText f).mapText g = i.mapText fun s => g (f s) := by
  cases i <;> rfl

theorem Inline.mapText_id (i : Inline) : i.mapText (fun s => s) = i := by
  cases i <;> rfl

/-- A function on texts that is undone by another one is undone in a block as well. -/
theorem Block.mapProse_mapProse_of_inverse {f g : Text → Text} (h : ∀ s, g (f s) = s) (b : Block) :
    (b.mapProse f).mapProse g = b := by
  cases b with
  | paragraph children p =>
    have hchildren : (children.map (Inline.mapText f)).map (Inline.mapText g) = children := by
      rw [List.map_map]
      refine (List.map_congr_left fun i _ => ?_).trans (List.map_id children)
      show (i.mapText f).mapText g = i
      simp only [Inline.mapText_mapText, h, Inline.mapText_id]
    exact congrArg (paragraph · p) hchildren
  | _ => rfl

/-! ### Tokens -/

/-- The token of the text with carriage returns. -/
def Token.withReturns : Token → Token
  | text s => text (Text.withReturns s)
  | tag content closing => tag (Text.withReturns content) closing

theorem Token.raw_withReturns (t : Token) : t.withReturns.raw = Text.withReturns t.raw := by
  cases t with
  | text s => rfl
  | tag content closing =>
    have hopen : Text.withReturns openMark = openMark := rfl
    have hclosing : Text.withReturns closing.text = closing.text := by cases closing <;> rfl
    show openMark ++ Text.withReturns content ++ closing.text =
      Text.withReturns (openMark ++ content ++ closing.text)
    rw [withReturns_append, withReturns_append, hopen, hclosing]

theorem Located.spread_withReturns {α : Type} (text : α → Text) (p : Position) (as : List α) :
    spread (fun a => Text.withReturns (text a)) p as = spread text p as := by
  induction as generalizing p with
  | nil => rfl
  | cons a as ih => rw [spread, spread, Position.after_withReturns, ih]

namespace Body

theorem closingOf_withReturns (r : Text) :
    closingOf (withReturns r) = ((closingOf r).1, withReturns (closingOf r).2) := by
  cases r with
  | nil => rfl
  | cons c r =>
    by_cases hn : c = '\n'
    · subst hn
      rfl
    · rw [withReturns_cons hn]
      by_cases hc : c = ']'
      · subst hc
        rfl
      · simp [closingOf, hc, withReturns_cons hn]

theorem readTag_withReturns (s : Text) :
    Token.readTag (withReturns s) =
      ((Token.readTag s).1.withReturns, withReturns (Token.readTag s).2) := by
  have hcut := Regions.cutAt_withReturns (m := closeMark) (by decide) (by decide) s
  cases hs : cutAt closeMark s with
  | none =>
    rw [hs, Option.map_none] at hcut
    simp only [Token.readTag, hs, hcut]
    rfl
  | some p =>
    rw [hs, Option.map_some] at hcut
    rw [readTag_of_cutAt hcut, readTag_of_cutAt hs, closingOf_withReturns]
    rfl

theorem readRun_withReturns (s : Text) :
    Token.readRun (withReturns s) =
      (withReturns (Token.readRun s).1, withReturns (Token.readRun s).2) := by
  unfold Token.readRun
  rw [Regions.cutAt_withReturns (by decide) (by decide)]
  cases cutAt openMark s with
  | none => rfl
  | some p =>
    simp only [Option.map_some, withReturns_append]
    rfl

theorem prefix_openMark_withReturns_iff {s : Text} :
    openMark <+: withReturns s ↔ openMark <+: s := by
  have h := after?_withReturns (m := openMark) (by decide) s
  rw [← not_iff_not, ← after?_eq_none_iff, ← after?_eq_none_iff, h, Option.map_eq_none_iff]

/-- The tokens of a text with carriage returns are those of the text, with their own carriage
returns. -/
theorem tokens_withReturns (s : Text) :
    tokens (withReturns s) = (tokens s).map Token.withReturns := by
  fun_induction tokens s with
  | case1 =>
    rw [withReturns_nil, tokens]
    rfl
  | case2 c r r' h ih =>
    rw [after?_eq_some_iff.1 h, withReturns_append, show withReturns openMark = openMark from rfl,
      tokens_open, readTag_withReturns, List.map_cons, ih]
  | case3 c r h ih =>
    have hopen := mt prefix_openMark_withReturns_iff.1 (after?_eq_none_iff.1 h)
    have hrun := readRun_withReturns r
    by_cases hc : c = '\n'
    · subst hc
      -- The run goes on behind the carriage return with the line feed.
      have hbreak : ¬ openMark <+: '\n' :: withReturns r := fun hp =>
        absurd (List.cons_prefix_cons.1 hp).1 (by decide)
      rw [withReturns_lineFeed] at hopen ⊢
      rw [tokens_run hopen, readRun_cons hbreak, hrun, ih]
      rfl
    · rw [withReturns_cons hc] at hopen ⊢
      rw [tokens_run hopen, hrun, ih, List.map_cons, Token.withReturns, withReturns_cons hc]

theorem locatedTokens_withReturns (s : Text) :
    locatedTokens (withReturns s) =
      (locatedTokens s).map fun t => ⟨t.value.withReturns, t.position⟩ := by
  unfold locatedTokens
  rw [tokens_withReturns, Located.spread_map]
  simp only [Token.raw_withReturns, Located.spread_withReturns]

end Body

/-! ### Lines -/

namespace Markdown

/-- A line that holds no line feed but at its ends is of the same kind with carriage returns. -/
theorem kind_withReturns {l : Text} (h : '\n' ∉ trim l) : kind (withReturns l) = kind l := by
  rw [kind, kind, trim_withReturns, withReturns_of_not_mem h]

theorem not_mem_trim_of_mem_pieces {s p : Text} (h : p ∈ pieces s) : '\n' ∉ trim p := by
  obtain ⟨a, b, hab⟩ := List.append_of_mem h
  obtain ⟨l, hl, hp⟩ := of_pieces_eq hab
  have htrim : trim p = trim l := by
    rcases hp with rfl | ⟨rfl, -⟩
    · exact trim_append_blank l (by decide)
    · rfl
  rw [htrim]
  exact fun hm => hl ((infix_trim l).subset hm)

/-- The line with carriage returns, at the same place. -/
def returned (line : Located Text) : Located Text :=
  ⟨withReturns line.value, line.position⟩

theorem span_map_returned {ls : List (Located Text)} (h : ∀ l ∈ ls, '\n' ∉ trim l.value) :
    (ls.map returned).takeWhile isProse = (ls.takeWhile isProse).map returned ∧
      (ls.map returned).dropWhile isProse = (ls.dropWhile isProse).map returned := by
  induction ls with
  | nil => exact ⟨rfl, rfl⟩
  | cons l ls ih =>
    obtain ⟨htake, hdrop⟩ := ih fun k hk => h k (List.mem_cons_of_mem _ hk)
    have hprose : isProse (returned l) = isProse l :=
      congrArg (· == LineKind.prose) (kind_withReturns (h l List.mem_cons_self))
    rw [List.map_cons, List.takeWhile_cons, List.dropWhile_cons, List.takeWhile_cons,
      List.dropWhile_cons, hprose, htake, hdrop]
    split <;> exact ⟨rfl, rfl⟩

/-- Lines with carriage returns form the same blocks, but for the texts of paragraphs. -/
theorem group_map_returned {ls : List (Located Text)} (h : ∀ l ∈ ls, '\n' ∉ trim l.value) :
    group (ls.map returned) = (group ls).map (Block.mapProse withReturns) := by
  fun_induction group ls with
  | case1 =>
    rw [List.map_nil, group]
    rfl
  | case2 line rest hk ih =>
    rw [← kind_withReturns (h line List.mem_cons_self)] at hk
    rw [List.map_cons, group]
    simp only [returned, hk]
    exact ih fun l hl => h l (List.mem_cons_of_mem _ hl)
  | case3 line rest level title hk ih =>
    rw [← kind_withReturns (h line List.mem_cons_self)] at hk
    rw [List.map_cons, group]
    simp only [returned, hk, List.map_cons]
    exact congrArg _ (ih fun l hl => h l (List.mem_cons_of_mem _ hl))
  | case4 line rest hk ih =>
    obtain ⟨htake, hdrop⟩ := span_map_returned fun l hl => h l (List.mem_cons_of_mem _ hl)
    have hrest := ih fun l hl =>
      h l (List.mem_cons_of_mem _ ((List.dropWhile_suffix isProse).subset hl))
    rw [← kind_withReturns (h line List.mem_cons_self)] at hk
    have htexts (ls : List (Located Text)) :
        (ls.map returned).map proseText = (ls.map proseText).map (Inline.mapText withReturns) := by
      rw [List.map_map, List.map_map]
      rfl
    rw [List.map_cons, group]
    simp only [show kind (returned line).value = .prose from hk]
    rw [htake, hdrop, hrest, ← List.map_cons, htexts]
    rfl

/-- A run of text with carriage returns gives the same blocks, but for the texts of paragraphs. -/
theorem read_withReturns (p : Position) (s : Text) :
    read p (withReturns s) = (read p s).map (Block.mapProse withReturns) := by
  have hlines : Located.spread id p (pieces (withReturns s)) =
      (Located.spread id p (pieces s)).map returned := by
    rw [pieces_withReturns, Located.spread_map]
    exact congrArg (List.map returned) (Located.spread_withReturns id p (pieces s))
  rw [read, read, hlines]
  refine group_map_returned fun l hl => ?_
  have hmem := List.mem_map_of_mem (f := Located.value) hl
  rw [Located.map_value_spread] at hmem
  exact not_mem_trim_of_mem_pieces hmem

end Markdown

/-! ### Bodies -/

namespace Body

theorem component?_withReturns (content : Text) (p : Position) :
    Tag.component? (withReturns content) p = Tag.component? content p := by
  unfold Tag.component?
  rw [words_withReturns]

theorem blocksOf_withReturns (t : Token) (p : Position) :
    blocksOf ⟨t.withReturns, p⟩ = (blocksOf ⟨t, p⟩).map (Block.mapProse withReturns) := by
  cases t with
  | text s => exact Markdown.read_withReturns p s
  | tag content closing =>
    show ((Tag.component? (withReturns content) p).map Block.component).toList =
      (((Tag.component? content p).map Block.component).toList).map (Block.mapProse withReturns)
    rw [component?_withReturns]
    cases Tag.component? content p <;> rfl

theorem errorOf_withReturns (t : Token) (p : Position) :
    errorOf ⟨t.withReturns, p⟩ = errorOf ⟨t, p⟩ := by
  cases t with
  | text s => rfl
  | tag content closing =>
    show (if (Tag.component? (withReturns content) p).isNone then _ else _) = _
    rw [component?_withReturns]
    rfl

/-- A body with carriage returns has the same blocks, but for the texts of paragraphs, and the same
errors. -/
theorem read_withReturns (s : Text) :
    read (withReturns s) = ((read s).1.map (Block.mapProse withReturns), (read s).2) := by
  unfold read build
  rw [locatedTokens_withReturns, List.flatMap_map, List.map_flatMap, List.filterMap_map]
  simp only [blocksOf_withReturns]
  refine congrArg _ (List.filterMap_congr fun t _ => ?_)
  exact errorOf_withReturns t.value t.position

end Body

end Formdoc
