/-
Two bodies with an empty line between them.

A body may be read from any place on (`readFrom`), and is read from further down as it is
read from the first place, but further down (`readFrom_down`).  In a body whose tags are all
closed only the last run of text can merge with what follows the body
(`exists_tokens_append`).  There an empty line parts the lines: those in front of it and
those behind it form their blocks by themselves (`Markdown.read_append_separator`).

So the blocks and the errors of the two bodies stand one behind the other
(`read_append_emptyLine`).  Nothing else changes, but that a paragraph whose last line runs
to the end of the first body (`endsInProse`) gains the line feed that this line lacked.
-/
import Formdoc.Proofs.Body.Decomposition
import Formdoc.Proofs.Body.Places
import Formdoc.Proofs.Body.Rewritten

namespace Formdoc

open Text

/-! ### Further down -/

/-- The place `n` lines further down. -/
def Position.down (n : Nat) (p : Position) : Position :=
  ⟨p.line + n, p.column⟩

/-- The value at the place `n` lines further down. -/
def Located.down {α : Type} (n : Nat) (t : Located α) : Located α :=
  ⟨t.value, t.position.down n⟩

/-- The component `n` lines further down. -/
def Component.down (n : Nat) (c : Component) : Component :=
  { c with position := c.position.down n }

/-- The inline `n` lines further down. -/
def Inline.down (n : Nat) : Inline → Inline
  | text s p => text s (p.down n)
  | component c => component (c.down n)

/-- The block `n` lines further down, with all its parts. -/
def Block.down (n : Nat) : Block → Block
  | heading level children p => heading level (children.map (Inline.down n)) (p.down n)
  | paragraph children p => paragraph (children.map (Inline.down n)) (p.down n)
  | component c => component (c.down n)

/-- The diagnostic about a line `n` lines further down. -/
def Diagnostic.down (n : Nat) (d : Diagnostic) : Diagnostic :=
  { d with line := d.line.map (· + n) }

theorem Position.next_down (n : Nat) (p : Position) (c : Char) :
    (p.down n).next c = (p.next c).down n := by
  unfold next
  split
  · rw [down, down, Nat.add_right_comm]
  · rfl

theorem Position.after_down (n : Nat) (p : Position) (s : Text) :
    (p.down n).after s = (p.after s).down n := by
  induction s generalizing p with
  | nil => rfl
  | cons c s ih =>
    show ((p.down n).next c).after s = ((p.next c).after s).down n
    rw [next_down, ih]

theorem Located.spread_down {α : Type} (text : α → Text) (n : Nat) (p : Position)
    (as : List α) : spread text (p.down n) as = (spread text p as).map (down n) := by
  induction as generalizing p with
  | nil => rfl
  | cons a as ih =>
    rw [spread, spread, Position.after_down, ih]
    rfl

/-! ### Lines -/

namespace Markdown

theorem group_blank {l : Located Text} (hl : kind l.value = .blank) (ls : List (Located Text)) :
    group (l :: ls) = group ls := by
  rw [group]
  simp only [hl]

theorem group_heading {l : Located Text} {level : Nat} {title : Text}
    (hl : kind l.value = .heading level title) (ls : List (Located Text)) :
    group (l :: ls) = .heading level [.text title l.position] l.position :: group ls := by
  rw [group]
  simp only [hl]

theorem group_prose {l : Located Text} (hl : kind l.value = .prose) (ls : List (Located Text)) :
    group (l :: ls) = .paragraph ((l :: ls.takeWhile isProse).map proseText) l.position ::
      group (ls.dropWhile isProse) := by
  rw [group]
  simp only [hl]

/-- Lines further down form the same blocks further down. -/
theorem group_map_down (n : Nat) (ls : List (Located Text)) :
    group (ls.map (Located.down n)) = (group ls).map (Block.down n) := by
  fun_induction group ls with
  | case1 => rw [List.map_nil, group, List.map_nil]
  | case2 line rest hk ih => rw [List.map_cons, group_blank (l := line.down n) hk, ih]
  | case3 line rest level title hk ih =>
    rw [List.map_cons, group_heading (l := line.down n) hk, ih]
    rfl
  | case4 line rest hk ih =>
    have hp : isProse ∘ Located.down n = isProse := rfl
    have htexts (ls : List (Located Text)) :
        (ls.map (Located.down n)).map proseText = (ls.map proseText).map (Inline.down n) := by
      rw [List.map_map, List.map_map]
      rfl
    rw [List.map_cons, group_prose (l := line.down n) hk, List.takeWhile_map, List.dropWhile_map,
      hp, ih, ← List.map_cons, htexts]
    rfl

theorem read_down (n : Nat) (p : Position) (s : Text) :
    read (p.down n) s = (read p s).map (Block.down n) := by
  rw [read, Located.spread_down, group_map_down]
  rfl

/-- Where lines of prose end within the lines, further lines behind make no difference. -/
theorem span_append {ls : List (Located Text)} (h : ls.dropWhile isProse ≠ [])
    (ks : List (Located Text)) :
    (ls ++ ks).takeWhile isProse = ls.takeWhile isProse ∧
      (ls ++ ks).dropWhile isProse = ls.dropWhile isProse ++ ks := by
  have hlength : (ls.takeWhile isProse).length ≠ ls.length := by
    have hsum := congrArg List.length (List.takeWhile_append_dropWhile (p := isProse) (l := ls))
    rw [List.length_append] at hsum
    have hpos := List.length_pos_iff.2 h
    omega
  rw [List.takeWhile_append, if_neg hlength, List.dropWhile_append,
    if_neg (by rwa [List.isEmpty_iff])]
  exact ⟨rfl, rfl⟩

/-- Lines of prose with lines behind them that start with no prose. -/
theorem span_prose {ls ks : List (Located Text)} (h : ls.dropWhile isProse = [])
    (hks : ∀ k, ks.head? = some k → kind k.value ≠ .prose) :
    (ls ++ ks).takeWhile isProse = ls ∧ (ls ++ ks).dropWhile isProse = ks :=
  Text.span_append (List.dropWhile_eq_nil_iff.1 h) fun k hk => by simp [isProse, hks k hk]

/-- The lines in front of a line that is not prose form their blocks by themselves. -/
theorem group_append_cons {l : Located Text} (hl : kind l.value ≠ .prose)
    (ls ks : List (Located Text)) : group (ls ++ l :: ks) = group ls ++ group (l :: ks) := by
  fun_induction group ls with
  | case1 => rfl
  | case2 line rest hk ih => rw [List.cons_append, group_blank hk, ih]
  | case3 line rest level title hk ih =>
    rw [List.cons_append, group_heading hk, ih]
    rfl
  | case4 line rest hk ih =>
    rw [List.cons_append, group_prose hk]
    by_cases hrest : rest.dropWhile isProse = []
    · have hhead (k : Located Text) (hk : (l :: ks).head? = some k) : kind k.value ≠ .prose := by
        obtain rfl : l = k := Option.some_inj.1 hk
        exact hl
      obtain ⟨htake, hdrop⟩ := span_prose hrest hhead
      rw [htake, hdrop, hrest, group,
        List.takeWhile_eq_self_iff.2 (List.dropWhile_eq_nil_iff.1 hrest)]
      rfl
    · obtain ⟨htake, hdrop⟩ := span_append hrest (l :: ks)
      rw [htake, hdrop, ih]
      rfl

/-- A line of prose behind other lines is the last text of the last block, and a line feed at its
end is one at the end of the block. -/
theorem exists_group_concat {l : Text} (hn : '\n' ∉ l) (hk : kind l = .prose) (q : Position)
    (ls : List (Located Text)) :
    ∃ bs b, group (ls ++ [⟨l, q⟩]) = bs ++ [b] ∧
      group (ls ++ [⟨l ++ ['\n'], q⟩]) = bs ++ [b.ended] := by
  have hk' : kind (l ++ ['\n']) = .prose := by rw [kind_append_lineFeed, hk]
  have hended (is : List Inline) (p : Position) :
      (Block.paragraph (is ++ [.text l q]) p).ended =
        .paragraph (is ++ [.text (l ++ ['\n']) q]) p := by
    rw [Block.ended, List.modifyLast_concat, Inline.ended,
      if_neg fun hl => hn (List.mem_of_getLast? hl)]
  fun_induction group ls with
  | case1 =>
    rw [List.nil_append, List.nil_append, group_prose hk, group_prose hk', List.takeWhile_nil,
      List.dropWhile_nil, group]
    exact ⟨[], _, rfl, congrArg (fun b => [b]) (hended [] q).symm⟩
  | case2 line rest hline ih =>
    rw [List.cons_append, List.cons_append, group_blank hline, group_blank hline]
    exact ih
  | case3 line rest level title hline ih =>
    obtain ⟨bs, b, hb, hb'⟩ := ih
    rw [List.cons_append, List.cons_append, group_heading hline, group_heading hline, hb, hb']
    exact ⟨_ :: bs, b, rfl, rfl⟩
  | case4 line rest hline ih =>
    rw [List.cons_append, List.cons_append, group_prose hline, group_prose hline]
    by_cases hrest : rest.dropWhile isProse = []
    · -- The lines of prose reach to the end, and are one paragraph.
      have hall (k : Text) (hprose : kind k = .prose) :
          ∀ m ∈ rest ++ [⟨k, q⟩], isProse m = true := by
        intro m hm
        rcases List.mem_append.1 hm with hm | hm
        · exact List.dropWhile_eq_nil_iff.1 hrest m hm
        · rw [List.mem_singleton.1 hm, isProse, hprose]
          rfl
      rw [List.takeWhile_eq_self_iff.2 (hall l hk), List.dropWhile_eq_nil_iff.2 (hall l hk),
        List.takeWhile_eq_self_iff.2 (hall _ hk'), List.dropWhile_eq_nil_iff.2 (hall _ hk'), group,
        ← List.cons_append, ← List.cons_append, List.map_append, List.map_append]
      exact ⟨[], _, rfl, congrArg (fun b => [b]) (hended _ line.position).symm⟩
    · obtain ⟨htake, hdrop⟩ := span_append hrest [⟨l, q⟩]
      obtain ⟨htake', hdrop'⟩ := span_append hrest [⟨l ++ ['\n'], q⟩]
      obtain ⟨bs, b, hb, hb'⟩ := ih
      rw [htake, hdrop, htake', hdrop', hb, hb']
      exact ⟨_ :: bs, b, rfl, rfl⟩

end Markdown

/-! ### Runs of text -/

namespace Text

theorem pieces_append_lineFeed (s t : Text) :
    pieces (s ++ '\n' :: t) = pieces (s ++ ['\n']) ++ pieces t := by
  induction s using line_induction with
  | last l hl =>
    rw [pieces_cons_append hl, pieces_cons_append hl]
    rfl
  | line l s hl ih =>
    rw [List.append_assoc, List.cons_append, pieces_cons_append hl, ih, List.append_assoc,
      List.cons_append, pieces_cons_append hl]
    rfl

theorem lastLine_of_not_mem {l : Text} (h : '\n' ∉ l) : lastLine l = l :=
  List.rtakeWhile_eq_self_iff.2 fun c hc => by
    rw [decide_eq_true_eq]
    rintro rfl
    exact h hc

theorem lastLine_append_cons (l s : Text) : lastLine (l ++ '\n' :: s) = lastLine s := by
  induction s using List.reverseRecOn with
  | nil => exact List.rtakeWhile_concat_neg _ _ _ (by simp)
  | append_singleton s c ih =>
    rw [← List.cons_append, ← List.append_assoc, lastLine, lastLine, List.rtakeWhile_concat,
      List.rtakeWhile_concat, ← lastLine, ih]
    rfl

/-- The pieces of a text are its last line, unless that is empty, and others in front of it. With a
line feed behind the text, the last line is a piece in any case, and ends in the line feed. -/
theorem exists_pieces_lastLine (s : Text) :
    '\n' ∉ lastLine s ∧ ∃ ps, pieces s = ps ++ pieces (lastLine s) ∧
      pieces (s ++ ['\n']) = ps ++ [lastLine s ++ ['\n']] := by
  induction s using line_induction with
  | last l hl =>
    rw [lastLine_of_not_mem hl, pieces_cons_append hl]
    exact ⟨hl, [], rfl, rfl⟩
  | line l s hl ih =>
    obtain ⟨hn, ps, hps, hps'⟩ := ih
    rw [lastLine_append_cons, List.append_assoc, List.cons_append, pieces_cons_append hl,
      pieces_cons_append hl, hps, hps']
    exact ⟨hn, (l ++ ['\n']) :: ps, rfl, rfl⟩

end Text

namespace Markdown

/-- An empty line parts a run of text: what stands in front of it and what stands behind it form
their blocks by themselves. -/
theorem read_append_separator (p : Position) (s t : Text) :
    read p (s ++ Body.separator ++ t) =
      read p (s ++ ['\n']) ++ read (p.after (s ++ Body.separator)) t := by
  have hpieces : pieces (s ++ Body.separator ++ t) =
      pieces (s ++ ['\n']) ++ ['\n'] :: pieces t := by
    rw [List.append_assoc, ← pieces_lineFeed_cons]
    exact pieces_append_lineFeed s ('\n' :: t)
  have hplace : (p.after ((pieces (s ++ ['\n'])).flatMap id)).after ['\n'] =
      p.after (s ++ Body.separator) := by
    rw [List.flatMap_id, flatten_pieces, ← Position.after_append, List.append_assoc]
    rfl
  rw [read, hpieces, Located.spread_append, Located.spread,
    group_append_cons (by rw [kind_lineFeed]; simp), group_blank kind_lineFeed, id, hplace]
  rfl

/-- A line feed behind a run of text whose last line is not prose makes no difference. -/
theorem read_append_lineFeed {s : Text} (hs : kind (lastLine s) ≠ .prose) (p : Position) :
    read p (s ++ ['\n']) = read p s := by
  obtain ⟨hn, ps, hps, hps'⟩ := exists_pieces_lastLine s
  have hkind := kind_append_lineFeed (lastLine s)
  rw [read, read, hps, hps', Located.spread_append, Located.spread_append, Located.spread,
    Located.spread, group_append_cons (by rwa [hkind])]
  by_cases hnil : lastLine s = []
  · rw [hnil, List.nil_append, group_blank kind_lineFeed, group, pieces, Located.spread,
      List.append_nil, List.append_nil]
  · rw [pieces_of_not_mem hnil hn, Located.spread, Located.spread, group_append_cons hs]
    congr 1
    -- The line stays of its kind, and only a line of prose is kept as it is written.
    cases hk : kind (lastLine s) with
    | blank =>
      rw [hk] at hkind
      rw [group_blank hkind, group_blank hk]
    | heading level title =>
      rw [hk] at hkind
      rw [group_heading hkind, group_heading hk]
    | prose => exact absurd hk hs

/-- A line feed behind a run of text whose last line is prose is one at the end of the last
block. -/
theorem exists_read_append_lineFeed {s : Text} (hs : kind (lastLine s) = .prose) (p : Position) :
    ∃ bs b, read p s = bs ++ [b] ∧ read p (s ++ ['\n']) = bs ++ [b.ended] := by
  obtain ⟨hn, ps, hps, hps'⟩ := exists_pieces_lastLine s
  have hne : lastLine s ≠ [] := by
    intro hnil
    rw [hnil] at hs
    exact absurd hs (by decide)
  rw [read, read, hps, hps', pieces_of_not_mem hne hn, Located.spread_append,
    Located.spread_append]
  exact exists_group_concat hn hs _ _

end Markdown

/-! ### Bodies -/

namespace Body

/-- The blocks of a text that starts at the given place, and the errors in it. -/
def readFrom (p : Position) (s : Text) : List Block × List Diagnostic :=
  build (Located.spread Token.raw p (tokens s))

theorem readFrom_first (s : Text) : readFrom Position.first s = read s := rfl

theorem blocksOf_down (n : Nat) (t : Located Token) :
    blocksOf (t.down n) = (blocksOf t).map (Block.down n) := by
  obtain ⟨t, p⟩ := t
  cases t with
  | text s => exact Markdown.read_down n p s
  | tag content closing =>
    show ((Tag.component? content (p.down n)).map Block.component).toList =
      ((Tag.component? content p).map Block.component).toList.map (Block.down n)
    unfold Tag.component?
    cases words content <;> rfl

theorem errorOf_down (n : Nat) (t : Located Token) :
    errorOf (t.down n) = (errorOf t).map (Diagnostic.down n) := by
  obtain ⟨t, p⟩ := t
  cases t with
  | text s => rfl
  | tag content closing =>
    simp only [errorOf, Located.down, Tag.isNone_component?]
    cases (words content).isEmpty <;> rfl

/-- A text further down is read as it is elsewhere, but further down. -/
theorem readFrom_down (n : Nat) (p : Position) (s : Text) :
    readFrom (p.down n) s =
      ((readFrom p s).1.map (Block.down n), (readFrom p s).2.map (Diagnostic.down n)) := by
  unfold readFrom build
  rw [Located.spread_down, List.flatMap_map, List.filterMap_map, List.map_flatMap,
    List.map_filterMap]
  simp only [blocksOf_down]
  exact congrArg _ (List.filterMap_congr fun t _ => errorOf_down n t)

/-- The tokens of a body whose tags are all closed: those in front of its last run of text, the last
of which is a tag, and the run, with which what follows the body may merge. -/
theorem exists_tokens_append {a : Text} (ha : Terminated a) :
    ∃ ts s, ¬ openMark <:+: s ∧ (∀ r, ts.getLast? ≠ some (.text r)) ∧
      ∀ x : Text, x.head? ≠ some ']' → x.head? ≠ some '%' →
        tokens (a ++ x) = ts ++ tokens (s ++ x) := by
  fun_induction tokens a with
  | case1 => exact ⟨[], [], by decide, by simp, fun x _ _ => rfl⟩
  | case2 c r r' hmark ih =>
    rw [after?_eq_some_iff.1 hmark] at ha ⊢
    cases hcut : cutAt closeMark r' with
    | none =>
      rw [Terminated, tagsOf_open_missing (cutAt_eq_none_iff.1 hcut)] at ha
      exact absurd rfl (ha _ (List.mem_singleton_self _))
    | some q =>
      obtain ⟨content, rest⟩ := q
      rw [readTag_of_cutAt hcut] at ih
      rw [Terminated, tagsOf_open_close hcut] at ha
      obtain ⟨ts, s, hs, hlast, hts⟩ := ih fun t ht => ha t (List.mem_cons_of_mem _ ht)
      refine ⟨.tag content (closingOf rest).1 :: ts, s, hs, fun r => ?_, fun x hb hp => ?_⟩
      · cases ts with
        | nil => simp
        | cons t ts =>
          rw [List.getLast?_cons_cons]
          exact hlast r
      · rw [List.append_assoc, tokens_open, readTag_of_cutAt (cutAt_append hcut x),
          closingOf_append hb, hts x hb hp]
        rfl
  | case3 c r hmark ih =>
    have hopen := after?_eq_none_iff.1 hmark
    rw [Terminated, tagsOf_cons hopen, ← tagsOf_readRun] at ha
    obtain ⟨ts, s, hs, hlast, hts⟩ := ih ha
    have hrun := Token.append_readRun r
    rcases readRun_snd r with hnil | hnext
    · -- The run reaches to the end.
      have hpure := Token.not_infix_readRun hopen
      rw [hnil, List.append_nil] at hrun
      rw [hrun] at hpure
      exact ⟨[], c :: r, hpure, by simp, fun x _ _ => rfl⟩
    · refine ⟨.text (c :: (Token.readRun r).1) :: ts, s, hs, fun q => ?_, fun x hb hp => ?_⟩
      · cases ts with
        | nil =>
          -- What follows the run would be the last run, but a tag opens in it.
          have hrest := congrArg (List.flatMap Token.raw) (hts [] (by simp) (by simp))
          rw [List.append_nil, List.append_nil, List.nil_append, flatten_raw_tokens,
            flatten_raw_tokens] at hrest
          exact absurd (hrest ▸ hnext.isInfix) hs
        | cons t ts =>
          rw [List.getLast?_cons_cons]
          exact hlast q
      · have hform : c :: r ++ x =
            c :: (Token.readRun r).1 ++ ((Token.readRun r).2 ++ x) := by
          conv_lhs => rw [← hrun]
          simp
        rw [hform, tokens_run_append (Token.not_infix_readRun hopen)
          (.inr (hnext.trans (List.prefix_append ..))), hts x hb hp]
        rfl

/-- The body ends within a line of prose: its last token is a run of text, and what stands there
behind the last line feed is prose. -/
def endsInProse (s : Text) : Bool :=
  match (tokens s).getLast? with
  | some (.text r) => Markdown.kind (lastLine r) == .prose
  | _ => false

theorem endsInProse_eq {a s : Text} {ts : List Token} (hs : ¬ openMark <:+: s)
    (hlast : ∀ r, ts.getLast? ≠ some (.text r)) (ha : tokens a = ts ++ tokens s) :
    endsInProse a = (Markdown.kind (lastLine s) == .prose) := by
  unfold endsInProse
  cases s with
  | nil =>
    rw [ha, tokens, List.append_nil]
    split
    · rename_i r hr
      exact absurd hr (hlast r)
    · rfl
  | cons c s =>
    have hrun := tokens_run_append hs (.inl rfl)
    rw [List.append_nil, tokens] at hrun
    rw [ha, hrun, List.getLast?_concat]

theorem readFrom_of_tokens {a s : Text} {ts : List Token} (h : tokens a = ts ++ tokens s)
    (p : Position) :
    readFrom p a =
      ((build (Located.spread Token.raw p ts)).1 ++ (readFrom (p.after (ts.flatMap Token.raw)) s).1,
        (build (Located.spread Token.raw p ts)).2 ++
          (readFrom (p.after (ts.flatMap Token.raw)) s).2) := by
  unfold readFrom build
  rw [h, Located.spread_append, List.flatMap_append, List.filterMap_append]

/-- A run of text gives the blocks of its lines, in front of what follows it, and has no error. -/
theorem readFrom_run_append {w r : Text} (hw : ¬ openMark <:+: w) (hr : r = [] ∨ openMark <+: r)
    (p : Position) :
    readFrom p (w ++ r) =
      (Markdown.read p w ++ (readFrom (p.after w) r).1, (readFrom (p.after w) r).2) := by
  cases w with
  | nil =>
    rw [Markdown.read, pieces, Located.spread, Markdown.group]
    rfl
  | cons c w =>
    rw [readFrom, tokens_run_append hw hr, Located.spread, build, List.flatMap_cons,
      List.filterMap_cons]
    rfl

/-- Behind an empty line that parts it from a run of text, a text is read as from its place on. -/
theorem readFrom_append_separator {s : Text} (hs : ¬ openMark <:+: s) (p : Position) (b : Text) :
    readFrom p (s ++ separator ++ b) =
      (Markdown.read p (s ++ ['\n']) ++ (readFrom (p.after (s ++ separator)) b).1,
        (readFrom (p.after (s ++ separator)) b).2) := by
  -- The run goes on to the first tag of what follows.
  obtain ⟨t, r, rfl, ht, hr⟩ := exists_run b
  have hrun : ¬ openMark <:+: s ++ separator ++ t := by
    rw [separator, List.append_assoc, List.cons_append,
      infix_append_cons_iff (by decide) (by decide), List.cons_append, List.nil_append,
      infix_cons_iff_of_not_mem (by decide) (by decide)]
    exact not_or.2 ⟨hs, ht⟩
  rw [← List.append_assoc, readFrom_run_append hrun hr, readFrom_run_append ht hr,
    Markdown.read_append_separator, Position.after_append p (s ++ separator) t, List.append_assoc]

/-- The place behind an empty line that follows a body. -/
theorem after_append_separator (a : Text) :
    Position.first.after (a ++ separator) = Position.first.down (breaks a + 2) := by
  have hline : lastLine (a ++ separator) = [] := by
    rw [separator, lastLine_append_cons]
    rfl
  have hcount : List.count '\n' separator = 2 := rfl
  rw [Position.after_eq_behind, Position.behind, hline, breaks, List.count_append, hcount]
  rfl

/-- Two bodies with an empty line between them, the first of which has no tag that runs to its end.
The blocks and the errors are those of the first body, and behind them those of the second one as
many lines further down as stand in front of it, but that a paragraph whose last line the first body
ends in has gained the line feed behind this line. -/
theorem read_append_emptyLine {a : Text} (ha : Terminated a) (b : Text) :
    (read (a ++ separator ++ b)).1 =
        (if endsInProse a then (read a).1.modifyLast Block.ended else (read a).1) ++
          (read b).1.map (Block.down (breaks a + 2)) ∧
      (read (a ++ separator ++ b)).2 =
        (read a).2 ++ (read b).2.map (Diagnostic.down (breaks a + 2)) := by
  obtain ⟨ts, s, hs, hlast, hts⟩ := exists_tokens_append ha
  have htokens : tokens a = ts ++ tokens s := by
    have := hts [] (by simp) (by simp)
    rwa [List.append_nil, List.append_nil] at this
  have htokens' : tokens (a ++ separator ++ b) = ts ++ tokens (s ++ separator ++ b) := by
    rw [List.append_assoc, List.append_assoc]
    exact hts _ (by simp [separator]) (by simp [separator])
  have hplace : (Position.first.after (ts.flatMap Token.raw)).after (s ++ separator) =
      Position.first.down (breaks a + 2) := by
    have hraw := congrArg (List.flatMap Token.raw) htokens
    rw [List.flatMap_append, flatten_raw_tokens, flatten_raw_tokens] at hraw
    rw [← Position.after_append, ← List.append_assoc, ← hraw, after_append_separator]
  have hrun (p : Position) : readFrom p s = (Markdown.read p s, []) := by
    have hrun := readFrom_run_append hs (.inl rfl) p
    have hnil : readFrom (p.after s) [] = ([], []) := by
      rw [readFrom, tokens]
      rfl
    rwa [hnil, List.append_nil, List.append_nil] at hrun
  rw [← readFrom_first, ← readFrom_first a, ← readFrom_first b, readFrom_of_tokens htokens',
    readFrom_of_tokens htokens, readFrom_append_separator hs, hplace, readFrom_down, hrun,
    endsInProse_eq hs hlast htokens]
  simp only [List.append_nil, and_true]
  by_cases hprose : Markdown.kind (lastLine s) = .prose
  · obtain ⟨bs, d, hbs, hbs'⟩ :=
      Markdown.exists_read_append_lineFeed hprose (Position.first.after (ts.flatMap Token.raw))
    have hne : bs ++ [d] ≠ [] := List.append_ne_nil_of_right_ne_nil bs (List.cons_ne_nil d [])
    rw [if_pos (beq_iff_eq.2 hprose), hbs, hbs', List.modifyLast_append_of_right_ne_nil _ _ _ hne,
      List.modifyLast_concat, ← List.append_assoc]
  · rw [if_neg (by rwa [beq_iff_eq]), Markdown.read_append_lineFeed hprose, List.append_assoc]

/-- A body with a tag, whose last line is prose without a line feed. -/
def front : Text :=
  "[% A x=1 /%]\nleft".toList

/-- A body that starts with prose, and has a tag without a name on its second line. -/
def rear : Text :=
  "right\n[% /%]# B".toList

theorem read_front_rear :
    Terminated front ∧
      (read (front ++ separator ++ rear)).1 =
        (if endsInProse front then (read front).1.modifyLast Block.ended else (read front).1) ++
          (read rear).1.map (Block.down (breaks front + 2)) ∧
      (read (front ++ separator ++ rear)).2 =
        (read front).2 ++ (read rear).2.map (Diagnostic.down (breaks front + 2)) ∧
      endsInProse front = true ∧ breaks front = 1 ∧ (read rear).1.length = 2 ∧
      (read rear).2.map (·.line) = [some 2] := by
  have hfront : Terminated front := by
    unfold Terminated
    decide +kernel
  obtain ⟨hblocks, herrors⟩ := read_append_emptyLine hfront rear
  exact ⟨hfront, hblocks, herrors, by decide +kernel⟩

end Body

end Formdoc
