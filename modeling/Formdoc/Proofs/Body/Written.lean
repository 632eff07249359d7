/-
Bodies that were read, written again.

Reading a body gives tidy blocks (`tidy_of_mem_read`): legible components, and
headings and paragraphs without an opening mark in them.  The tags of tidy
blocks, written one after another, are those of their components
(`tagsOf_write`); so writing a body and reading it again finds as many
components, each with its values quoted once more.  Writing brings in no fence
(`not_fence_write_read`), and no blank at the front (`isBlank_head_write_read`).
-/
import Formdoc.Proofs.Body.Component
import Formdoc.Proofs.Text.Lines

namespace Formdoc

open Text

/-- A block that holds no tag but the one that it is. -/
def Block.Tidy : Block → Prop
  | .component c => c.Legible
  | b => b.components = [] ∧ ¬ openMark <:+: b.write

theorem Block.write_heading (level : Nat) (s : Text) (q p : Position) :
    (heading level [.text s q] p).write = List.replicate level '#' ++ ' ' :: s := by
  simp [write, Inline.write]

/-! ### Runs of text -/

namespace Located

theorem map_value_spread {α : Type} (text : α → Text) (p : Position) (as : List α) :
    (spread text p as).map Located.value = as := by
  induction as generalizing p with
  | nil => rfl
  | cons a as ih => rw [spread, List.map_cons, ih]

end Located

namespace Markdown

theorem head?_marks {n : Nat} (h : 1 ≤ n) (s : Text) :
    (List.replicate n '#' ++ s).head? = some '#' := by
  obtain ⟨k, rfl⟩ := Nat.exists_eq_add_of_le h
  rw [Nat.add_comm, List.replicate_succ]
  rfl

/-- The text has the form of a heading: one to six number signs, a blank, and more. -/
def HeadingShaped (s : Text) : Prop :=
  ∃ n c r, 1 ≤ n ∧ n ≤ maxLevel ∧ isBlank c = true ∧ s = List.replicate n '#' ++ c :: r

theorem kindOfTrimmed_marks {n : Nat} (h1 : 1 ≤ n) (hn : n ≤ maxLevel) {c : Char}
    (hc : isBlank c = true) (r : Text) :
    kindOfTrimmed (List.replicate n '#' ++ c :: r) = .heading n (trimStart r) := by
  have hall : ∀ d ∈ List.replicate n '#', (d == '#') = true := by
    intro d hd
    rw [List.eq_of_mem_replicate hd]
    rfl
  obtain ⟨htake, hdrop⟩ := span_append (b := c :: r) hall fun d hd => by
    obtain rfl : c = d := Option.some_inj.1 hd
    rw [beq_eq_false_iff_ne]
    rintro rfl
    exact absurd hc (by decide)
  unfold kindOfTrimmed
  rw [if_neg (by simp)]
  simp only
  rw [htake, hdrop]
  simp [h1, hn, hc]

theorem kindOfTrimmed_of_not_headingShaped {s : Text} (hne : s ≠ []) (h : ¬ HeadingShaped s) :
    kindOfTrimmed s = .prose := by
  -- The number signs at the front, with a blank behind them, would have the form of a heading.
  have hmarks : s.takeWhile (· == '#') = List.replicate (s.takeWhile (· == '#')).length '#' := by
    refine List.eq_replicate_of_mem fun c hc => ?_
    simpa using List.mem_takeWhile_imp hc
  have hsplit : s.takeWhile (· == '#') ++ s.dropWhile (· == '#') = s :=
    List.takeWhile_append_dropWhile
  unfold kindOfTrimmed
  rw [if_neg hne]
  simp only
  split
  · rename_i c r hcr
    refine if_neg fun hc => h ⟨_, c, r, hc.1, hc.2.1, hc.2.2, ?_⟩
    rw [← hmarks, ← hcr, hsplit]
  · rfl

/-- A line is blank, or has the form of a heading, or is prose. -/
theorem kind_cases (line : Text) :
    (trim line = [] ∧ kind line = .blank) ∨
      (∃ n c r, 1 ≤ n ∧ n ≤ maxLevel ∧ isBlank c = true ∧
        trim line = List.replicate n '#' ++ c :: r ∧ kind line = .heading n (trimStart r)) ∨
      (trim line ≠ [] ∧ ¬ HeadingShaped (trim line) ∧ kind line = .prose) := by
  unfold kind
  by_cases hnil : trim line = []
  · exact .inl ⟨hnil, by rw [hnil]; rfl⟩
  · by_cases hh : HeadingShaped (trim line)
    · obtain ⟨n, c, r, h1, hn, hc, hs⟩ := hh
      exact .inr (.inl ⟨n, c, r, h1, hn, hc, hs, by rw [hs, kindOfTrimmed_marks h1 hn hc]⟩)
    · exact .inr (.inr ⟨hnil, hh, kindOfTrimmed_of_not_headingShaped hnil hh⟩)

theorem of_kind_heading {line title : Text} {level : Nat} (h : kind line = .heading level title) :
    1 ≤ level ∧ level ≤ maxLevel ∧ ∃ c r, isBlank c = true ∧
      trim line = List.replicate level '#' ++ c :: r ∧ title = trimStart r := by
  rcases kind_cases line with ⟨-, hk⟩ | ⟨n, c, r, h1, hn, hc, hs, hk⟩ | ⟨-, -, hk⟩
  · rw [hk] at h
    cases h
  · rw [hk] at h
    cases h
    exact ⟨h1, hn, c, r, hc, hs, rfl⟩
  · rw [hk] at h
    cases h

theorem of_kind_prose {line : Text} (h : kind line = .prose) :
    trim line ≠ [] ∧ ¬ HeadingShaped (trim line) := by
  rcases kind_cases line with ⟨-, hk⟩ | ⟨n, c, r, -, -, -, -, hk⟩ | ⟨hne, hh, -⟩
  · rw [hk] at h
    cases h
  · rw [hk] at h
    cases h
  · exact ⟨hne, hh⟩

theorem infix_title {line title : Text} {level : Nat} (h : kind line = .heading level title) :
    title <:+: trim line := by
  obtain ⟨-, -, c, r, -, hs, rfl⟩ := of_kind_heading h
  have hr : trimStart r <:+ c :: r := (List.dropWhile_suffix _).trans (List.suffix_cons c r)
  exact (hr.trans (hs ▸ List.suffix_append ..)).isInfix

/-- A title is not empty and has no blank at an end. -/
theorem trim_title {line title : Text} {level : Nat} (h : kind line = .heading level title) :
    title ≠ [] ∧ trim title = title := by
  obtain ⟨-, -, c, r, hc, hs, rfl⟩ := of_kind_heading h
  -- The title is the end of the trimmed line, and does not vanish since that ends in no blank.
  have hlast {d : Char} (hd : (c :: r).getLast? = some d) : isBlank d = false := by
    refine isBlank_last_trim (s := line) ?_
    rw [hs, List.getLast?_append_of_ne_nil _ (by simp), hd]
  have hne : trimStart r ≠ [] := by
    intro hnil
    have hall : ∀ d ∈ c :: r, isBlank d = true :=
      List.forall_mem_cons.2 ⟨hc, List.dropWhile_eq_nil_iff.1 hnil⟩
    have hd := List.getLast?_eq_some_getLast (List.cons_ne_nil c r)
    have hblank := hall _ (List.mem_of_getLast? hd)
    rw [hlast hd] at hblank
    cases hblank
  refine ⟨hne, trim_eq_self_iff.2 ⟨fun d hd => ?_, fun d hd => hlast ?_⟩⟩
  · have := List.head?_dropWhile_not isBlank r
    rw [trimStart] at hd
    rw [hd] at this
    simpa using this
  · have hsplit : c :: r = (c :: r.takeWhile isBlank) ++ trimStart r := by
      rw [trimStart, List.cons_append, List.takeWhile_append_dropWhile]
    rw [hsplit, List.getLast?_append_of_ne_nil _ hne, hd]

/-- The text has the form of a heading. But for the blanks around it, it consists of as many number
signs as the level says, blanks, and the title. -/
def IsHeading (level : Nat) (title : Text) (l : Text) : Prop :=
  1 ≤ level ∧ level ≤ 6 ∧ title ≠ [] ∧ (∀ c, title.head? = some c → isBlank c = false) ∧
    ∃ gap, gap ≠ [] ∧ (∀ c ∈ gap, isBlank c = true) ∧
      trim l = List.replicate level '#' ++ gap ++ title

/-- The text is neither blank nor has it the form of a heading. -/
def IsProse (l : Text) : Prop :=
  trim l ≠ [] ∧ ∀ level title, ¬ IsHeading level title l

theorem kind_eq_heading_iff {level : Nat} {title l : Text} :
    kind l = .heading level title ↔ IsHeading level title l := by
  constructor
  · intro h
    obtain ⟨h1, h6, c, r, hc, htrim, rfl⟩ := of_kind_heading h
    obtain ⟨hne, hself⟩ := trim_title h
    have hr : r.takeWhile isBlank ++ trimStart r = r := List.takeWhile_append_dropWhile
    refine ⟨h1, h6, hne, (trim_eq_self_iff.1 hself).1, c :: r.takeWhile isBlank, by simp,
      List.forall_mem_cons.2 ⟨hc, fun _ => List.mem_takeWhile_imp⟩, ?_⟩
    rw [htrim, List.append_assoc, List.cons_append, hr]
  · rintro ⟨h1, h6, hne, hhead, gap, hgap, hblank, htrim⟩
    obtain ⟨c, gap, rfl⟩ := List.exists_cons_of_ne_nil hgap
    obtain ⟨hc, hblank⟩ := List.forall_mem_cons.1 hblank
    have htitle : trimStart (gap ++ title) = title := (span_append hblank hhead).2
    rw [kind, htrim, List.append_assoc, List.cons_append, kindOfTrimmed_marks h1 h6 hc, htitle]

theorem kind_eq_blank_iff {l : Text} : kind l = .blank ↔ trim l = [] := by
  rcases kind_cases l with ⟨hnil, hk⟩ | ⟨n, c, r, h1, -, -, hs, hk⟩ | ⟨hne, -, hk⟩
  · exact iff_of_true hk hnil
  · exact iff_of_false (by rw [hk]; simp) (by rw [hs]; simp)
  · exact iff_of_false (by rw [hk]; simp) hne

theorem kind_eq_prose_iff {l : Text} : kind l = .prose ↔ IsProse l := by
  simp only [IsProse, ne_eq, ← kind_eq_blank_iff, ← kind_eq_heading_iff]
  cases kind l with
  | blank => simp
  | heading level title => simp
  | prose => simp

/-- A block that lines form: the heading that one of them is, or a paragraph of consecutive lines
of prose. -/
inductive OfLines (ls : List (Located Text)) : Block → Prop
  | heading {line : Located Text} {level : Nat} {title : Text} (p q : Position) (h : line ∈ ls)
    (hk : kind line.value = .heading level title) :
    OfLines ls (.heading level [.text title p] q)
  | paragraph {part : List (Located Text)} (p : Position) (h : part <:+: ls) (hne : part ≠ [])
    (hk : ∀ l ∈ part, kind l.value = .prose) : OfLines ls (.paragraph (part.map proseText) p)

theorem OfLines.mono {ls ks : List (Located Text)} (h : ls <:+: ks) {b : Block}
    (hb : OfLines ls b) : OfLines ks b := by
  cases hb with
  | heading p q hl hk => exact .heading p q (h.subset hl) hk
  | paragraph p hpart hne hk => exact .paragraph p (hpart.trans h) hne hk

theorem ofLines_of_mem_group {ls : List (Located Text)} {b : Block} (h : b ∈ group ls) :
    OfLines ls b := by
  fun_induction group ls with
  | case1 => cases h
  | case2 line rest hk ih => exact (ih h).mono (List.suffix_cons ..).isInfix
  | case3 line rest level title hk ih =>
    rcases List.mem_cons.1 h with rfl | h
    · exact .heading _ _ List.mem_cons_self hk
    · exact (ih h).mono (List.suffix_cons ..).isInfix
  | case4 line rest hk ih =>
    rcases List.mem_cons.1 h with rfl | h
    · refine .paragraph _ (List.IsPrefix.isInfix ?_) (by simp) ?_
      · exact (List.prefix_cons_inj line).2 (List.takeWhile_prefix _)
      · intro l hl
        rcases List.mem_cons.1 hl with rfl | hl
        · exact hk
        · simpa [isProse] using List.mem_takeWhile_imp hl
    · exact (ih h).mono ((List.dropWhile_suffix _).trans (List.suffix_cons ..)).isInfix

theorem write_proseTexts (part : List (Located Text)) :
    (part.map proseText).flatMap Inline.write = (part.map Located.value).flatten := by
  rw [List.flatMap_map, List.flatMap_def]
  rfl

/-- What stands in a block of a run stands in the run, but for the number signs and the blank of a
heading. -/
theorem not_infix_write {m : Text} (hm : m ≠ []) (hblank : ' ' ∉ m) (hhash : '#' ∉ m) {p : Position}
    {r : Text} (hr : ¬ m <:+: r) {b : Block} (hb : b ∈ read p r) :
    b.components = [] ∧ ¬ m <:+: b.write := by
  have hvalues : (Located.spread id p (pieces r)).map Located.value = pieces r :=
    Located.map_value_spread ..
  cases ofLines_of_mem_group hb with
  | heading q q' hl hk =>
    rename_i l level title
    refine ⟨rfl, fun hi => ?_⟩
    have hlr : l.value <:+: r := by
      have hmem : l.value ∈ pieces r := hvalues ▸ List.mem_map_of_mem hl
      have := List.infix_of_mem_flatten hmem
      rwa [flatten_pieces] at this
    rw [Block.write_heading, infix_append_cons_iff hblank hm] at hi
    rcases hi with hi | hi
    · obtain ⟨c, m', rfl⟩ := List.exists_cons_of_ne_nil hm
      have := List.eq_of_mem_replicate (hi.subset List.mem_cons_self)
      exact hhash (this ▸ List.mem_cons_self)
    · exact hr (hi.trans ((infix_title hk).trans ((infix_trim _).trans hlr)))
  | paragraph q hpart _ _ =>
    rename_i part _ _
    refine ⟨by simp [Block.components, proseText, Inline.component?], fun hi => hr ?_⟩
    have hform : (Block.paragraph (part.map proseText) q).write =
        (part.map Located.value).flatten := write_proseTexts part
    rw [hform] at hi
    have hinf : (part.map Located.value).flatten <:+: (pieces r).flatten := by
      obtain ⟨a, b, hab⟩ := hpart
      refine ⟨(a.map Located.value).flatten, (b.map Located.value).flatten, ?_⟩
      rw [← hvalues, ← hab]
      simp
    rw [flatten_pieces] at hinf
    exact hi.trans hinf

end Markdown

/-! ### Tokens -/

namespace Token

theorem not_infix_readTag {s content : Text} {closing : Closing}
    (h : (readTag s).1 = .tag content closing) : ¬ closeMark <:+: content := by
  unfold readTag at h
  split at h
  · rename_i hc
    cases h
    exact cutAt_eq_none_iff.1 hc
  · rename_i hc
    cases h
    exact not_infix_of_cutAt (by decide) hc
  · rename_i hc
    cases h
    exact not_infix_of_cutAt (by decide) hc

theorem not_infix_readRun {c : Char} {s : Text} (h : ¬ openMark <+: c :: s) :
    ¬ openMark <:+: c :: (readRun s).1 := by
  have hprefix : (readRun s).1 <+: s := ⟨_, append_readRun s⟩
  rw [List.infix_cons_iff, not_or]
  refine ⟨fun hp => h (hp.trans ((List.prefix_cons_inj c).2 hprefix)), ?_⟩
  unfold readRun
  split
  · rename_i hc
    exact cutAt_eq_none_iff.1 hc
  · rename_i hc
    exact not_infix_of_cutAt (by decide) hc

/-- A run of text holds no opening mark, and a tag no closing mark. -/
def Pure : Token → Prop
  | text s => ¬ openMark <:+: s
  | tag content _ => ¬ closeMark <:+: content

theorem pure_of_mem_tokens {s : Text} {t : Token} (h : t ∈ tokens s) : t.Pure := by
  fun_induction tokens s with
  | case1 => cases h
  | case2 c r r' _ ih =>
    rcases List.mem_cons.1 h with rfl | h
    · cases ht : (readTag r').1 with
      | text s =>
        unfold readTag at ht
        split at ht <;> cases ht
      | tag content closing => exact not_infix_readTag ht
    · exact ih h
  | case3 c r hm ih =>
    rcases List.mem_cons.1 h with rfl | h
    · exact not_infix_readRun (after?_eq_none_iff.1 hm)
    · exact ih h

theorem infix_of_mem_tokens {s : Text} {t : Token} (h : t ∈ tokens s) : t.raw <:+: s := by
  have := List.infix_of_mem_flatten (List.mem_map_of_mem (f := raw) h)
  rwa [← List.flatMap_def, flatten_raw_tokens] at this

end Token

namespace Body

theorem read_nil : read [] = ([], []) := by
  rw [read, locatedTokens, tokens]
  rfl

theorem exists_of_mem_read {s : Text} {b : Block} (h : b ∈ (read s).1) :
    ∃ t ∈ tokens s, ∃ p, b ∈ blocksOf ⟨t, p⟩ := by
  obtain ⟨t, ht, hb⟩ := List.mem_flatMap.1 h
  refine ⟨t.value, ?_, t.position, hb⟩
  rw [← Located.map_value_spread Token.raw Position.first (tokens s)]
  exact List.mem_map_of_mem ht

/-- A component of a body is named by one of its tags. -/
theorem exists_of_component_mem {content : Text} {closing : Closing} {p : Position} {b : Block}
    (h : b ∈ blocksOf ⟨.tag content closing, p⟩) :
    ∃ c, b = .component c ∧ Tag.named? content = some c.unplaced := by
  obtain ⟨c, hc, rfl⟩ : ∃ c, Tag.component? content p = some c ∧ Block.component c = b := by
    simpa [blocksOf] using h
  refine ⟨c, rfl, ?_⟩
  rw [← Tag.component?_map_unplaced content p, hc]
  rfl

/-- Whether a component is legible depends on its name and its properties alone. -/
theorem legible_congr {c d : Component} (h : d.Legible) (hname : d.name = c.name)
    (hprops : d.props = c.props) : c.Legible := by
  obtain ⟨name, props, p⟩ := c
  obtain rfl : d.name = name := hname
  obtain rfl : d.props = props := hprops
  exact ⟨h.name_ne, h.name_solid, h.isKey_of_mem, h.solid_of_mem⟩

/-- Reading a body gives tidy blocks. -/
theorem tidy_of_mem_read {s : Text} {b : Block} (h : b ∈ (read s).1) : b.Tidy := by
  obtain ⟨t, ht, p, hb⟩ := exists_of_mem_read h
  have hpure := Token.pure_of_mem_tokens ht
  cases t with
  | text r =>
    have hrun := Markdown.not_infix_write (by decide) (by decide) (by decide) hpure hb
    cases b with
    | heading level children q => exact hrun
    | paragraph children q => exact hrun
    | component c => cases hrun.1
  | tag content closing =>
    obtain ⟨c, rfl, hc⟩ := exists_of_component_mem hb
    exact legible_congr (Tag.legible_of_named? hc hpure).1 rfl rfl

/-- Writing a block that was read brings in no fence. -/
theorem not_fence_of_mem_read {s : Text} (hs : ¬ fence <:+: s) {b : Block} (h : b ∈ (read s).1) :
    ¬ fence <:+: b.write := by
  obtain ⟨t, ht, p, hb⟩ := exists_of_mem_read h
  have hpure := Token.pure_of_mem_tokens ht
  have hraw := Token.infix_of_mem_tokens ht
  cases t with
  | text r =>
    exact (Markdown.not_infix_write (by decide) (by decide) (by decide)
      (fun hi => hs (hi.trans hraw)) hb).2
  | tag content closing =>
    have hcontent : ¬ fence <:+: content := fun hi =>
      hs (hi.trans (List.IsInfix.trans ⟨openMark, closing.text, rfl⟩ hraw))
    obtain ⟨c, rfl, hc⟩ := exists_of_component_mem hb
    obtain ⟨hlegible, hname, hprops⟩ := Tag.legible_of_named? hc hpure
    have hin : ¬ fence <:+: c.content := by
      refine Component.not_infix_content (by decide) (by decide) (by decide) (by decide)
        (fun hi => hcontent (hi.trans hname)) fun e he => ?_
      obtain ⟨v, hv, -⟩ := hlegible.solid_of_mem e he
      exact ⟨fun hi => hcontent (hi.trans (hprops e he).1), v, hv,
        fun hi => hcontent (hi.trans ((hprops e he).2 v hv))⟩
    show ¬ fence <:+: c.write
    have hwrite : c.write = openMark ++ (c.content ++ '/' :: ['%', ']']) := by
      rw [Component.write_eq, closeMark, List.append_assoc]
      rfl
    rw [hwrite, openMark, List.cons_append, List.cons_append, List.nil_append,
      infix_cons_iff_of_not_mem (by decide) (by decide),
      infix_cons_iff_of_not_mem (by decide) (by decide),
      infix_append_cons_iff (by decide) (by decide)]
    rintro (hi | hi)
    · exact hin hi
    · exact absurd hi (by decide)

/-! ### Written bodies -/

theorem write_cons_cons (a b : Block) (bs : List Block) :
    write (a :: b :: bs) = a.write ++ '\n' :: '\n' :: write (b :: bs) := by
  rw [write, List.map_cons, List.map_cons, List.intercalate_cons_cons, separator,
    List.append_assoc]
  rfl

theorem write_singleton (b : Block) : write [b] = b.write :=
  List.intercalate_singleton

theorem write_nil : write [] = [] := rfl

theorem not_fence_write {bs : List Block} (h : ∀ b ∈ bs, ¬ fence <:+: b.write) :
    ¬ fence <:+: write bs := by
  induction bs with
  | nil => decide
  | cons b bs ih =>
    have hb := h b List.mem_cons_self
    cases bs with
    | nil => rwa [write_singleton]
    | cons c cs =>
      rw [write_cons_cons, infix_append_cons_iff (by decide) (by decide),
        infix_cons_iff_of_not_mem (by decide) (by decide)]
      exact not_or.2 ⟨hb, ih fun d hd => h d (List.mem_cons_of_mem _ hd)⟩

/-- Writing a body that was read brings in no fence. -/
theorem not_fence_write_read {s : Text} (h : ¬ fence <:+: s) : ¬ fence <:+: write (read s).1 :=
  not_fence_write fun _ => not_fence_of_mem_read h

theorem tagsOf_write_of_tidy {b : Block} (h : b.Tidy) :
    tagsOf b.write = b.components.map fun c => (c.content, .bracket) := by
  cases b with
  | heading level children p => rw [tagsOf_of_not_open h.2, h.1, List.map_nil]
  | paragraph children p => rw [tagsOf_of_not_open h.2, h.1, List.map_nil]
  | component c => exact h.tagsOf_write

/-- The tags of written blocks are those of their components, each of them closed. -/
theorem tagsOf_write {bs : List Block} (h : ∀ b ∈ bs, b.Tidy) :
    tagsOf (write bs) = (componentsOf bs).map fun c => (c.content, .bracket) := by
  induction bs with
  | nil => rw [write_nil, tagsOf_nil]; rfl
  | cons b bs ih =>
    have hb := tagsOf_write_of_tidy (h b List.mem_cons_self)
    cases bs with
    | nil =>
      rw [write_singleton, hb, componentsOf, List.flatMap_singleton]
    | cons c cs =>
      have hrest := ih fun d hd => h d (List.mem_cons_of_mem _ hd)
      -- The empty line between two blocks belongs to no tag, since all tags before it are closed.
      have hterm : Terminated b.write := by
        intro t ht
        rw [hb] at ht
        obtain ⟨_, -, rfl⟩ := List.mem_map.1 ht
        simp
      have hsep : tagsOf ('\n' :: '\n' :: write (c :: cs)) = tagsOf (write (c :: cs)) :=
        tagsOf_blank_append (w := ['\n', '\n']) _ (by decide)
      rw [write_cons_cons, tagsOf_append hterm (by simp) (by simp), hb, hsep, hrest,
        ← List.map_append]
      rfl

theorem terminated_write {bs : List Block} (h : ∀ b ∈ bs, b.Tidy) : Terminated (write bs) := by
  intro t ht
  rw [tagsOf_write h] at ht
  obtain ⟨_, -, rfl⟩ := List.mem_map.1 ht
  simp

theorem legible_of_mem_componentsOf {bs : List Block} (h : ∀ b ∈ bs, b.Tidy) {c : Component}
    (hc : c ∈ componentsOf bs) : c.Legible := by
  obtain ⟨b, hb, hcb⟩ := List.mem_flatMap.1 hc
  have htidy := h b hb
  cases b with
  | heading level children p =>
    rw [htidy.1] at hcb
    cases hcb
  | paragraph children p =>
    rw [htidy.1] at hcb
    cases hcb
  | component d =>
    obtain rfl := List.mem_singleton.1 hcb
    exact htidy

/-! ### The front of a written body -/

theorem head?_write_cons {b : Block} (h : b.write ≠ []) (bs : List Block) :
    (write (b :: bs)).head? = b.write.head? := by
  cases bs with
  | nil => rw [write_singleton]
  | cons c cs => rw [write_cons_cons, List.head?_append_of_ne_nil _ h]

/-- The first block of lines whose first one is not blank. -/
theorem exists_group_cons (l : Located Text) (ls : List (Located Text)) {c : Char} {s : Text}
    (hl : l.value = c :: s) (hc : isBlank c = false) :
    ∃ b bs, Markdown.group (l :: ls) = b :: bs ∧
      ∃ d, b.write.head? = some d ∧ isBlank d = false := by
  have hk : Markdown.kind l.value ≠ .blank := by
    rcases Markdown.kind_cases l.value with ⟨ht, -⟩ | ⟨n, d, r, -, -, -, -, hk⟩ | ⟨-, -, hk⟩
    · have := trim_eq_nil_iff.1 ht c (by rw [hl]; exact List.mem_cons_self)
      rw [hc] at this
      cases this
    · simp [hk]
    · simp [hk]
  rw [Markdown.group]
  split
  · rename_i h
    exact absurd h hk
  · rename_i level title h
    refine ⟨_, _, rfl, '#', ?_, by decide⟩
    rw [Block.write_heading, Markdown.head?_marks (Markdown.of_kind_heading h).1]
  · refine ⟨_, _, rfl, c, ?_, hc⟩
    rw [Block.write, Markdown.write_proseTexts, List.map_cons, List.flatten_cons, hl]
    rfl

/-- A text that is not empty starts with a tag or with a run of its first characters. -/
theorem exists_tokens_cons (c : Char) (s : Text) : ∃ t ts, tokens (c :: s) = t :: ts ∧
    ((∃ content closing, t = .tag content closing) ∨ ∃ r, t = .text (c :: r)) := by
  rw [tokens]
  split
  · rename_i r' _
    refine ⟨_, _, rfl, .inl ?_⟩
    unfold Token.readTag
    split <;> exact ⟨_, _, rfl⟩
  · exact ⟨_, _, rfl, .inr ⟨_, rfl⟩⟩

theorem exists_read_cons {s : Text} {t : Token} {ts : List Token} (h : tokens s = t :: ts) :
    ∃ bs es, read s = (blocksOf ⟨t, Position.first⟩ ++ bs,
      (errorOf ⟨t, Position.first⟩).toList ++ es) := by
  refine ⟨(build (Located.spread Token.raw (Position.first.after t.raw) ts)).1,
    (build (Located.spread Token.raw (Position.first.after t.raw) ts)).2, ?_⟩
  rw [read, locatedTokens, h, Located.spread, build, List.flatMap_cons, List.filterMap_cons]
  cases errorOf ⟨t, Position.first⟩ <;> rfl

/-- A run that starts with no blank gives a block that starts with none. -/
theorem exists_blocksOf_text {c : Char} (hc : isBlank c = false) (r : Text) :
    ∃ b bs, blocksOf ⟨.text (c :: r), Position.first⟩ = b :: bs ∧
      ∃ d, b.write.head? = some d ∧ isBlank d = false := by
  obtain ⟨p, ps, hp⟩ := exists_pieces_cons c r
  show ∃ b bs, Markdown.group (Located.spread id Position.first (pieces (c :: r))) = b :: bs ∧ _
  rw [hp]
  exact exists_group_cons ⟨c :: p, Position.first⟩ _ rfl hc

/-- A tag without an error gives its component. -/
theorem exists_blocksOf_tag {content : Text} {closing : Closing}
    (h : errorOf ⟨.tag content closing, Position.first⟩ = none) :
    ∃ c : Component, blocksOf ⟨.tag content closing, Position.first⟩ = [.component c] := by
  cases hc : Tag.component? content Position.first with
  | none => simp [errorOf, hc] at h
  | some c => exact ⟨c, by simp [blocksOf, hc]⟩

/-- A body without errors that starts with no blank is written again without one. -/
theorem isBlank_head_write_read {s : Text} (hs : ∀ c, s.head? = some c → isBlank c = false)
    (herr : (read s).2 = []) (c : Char) (hc : (write (read s).1).head? = some c) :
    isBlank c = false := by
  -- It is enough to look at the first block.
  have hfirst (b : Block) (bs : List Block) (d : Char) (hbs : (read s).1 = b :: bs)
      (hd : b.write.head? = some d) (hdb : isBlank d = false) : isBlank c = false := by
    have hne : b.write ≠ [] := by
      intro hnil
      rw [hnil] at hd
      cases hd
    rw [hbs, head?_write_cons hne, hd, Option.some_inj] at hc
    rw [← hc]
    exact hdb
  cases s with
  | nil =>
    rw [read_nil] at hc
    cases hc
  | cons e s =>
    obtain ⟨t, ts, hts, ht⟩ := exists_tokens_cons e s
    obtain ⟨bs, es, hread⟩ := exists_read_cons hts
    rw [hread] at hfirst herr
    rcases ht with ⟨content, closing, rfl⟩ | ⟨r, rfl⟩
    · have hnone : errorOf ⟨.tag content closing, Position.first⟩ = none := by
        rw [← Option.toList_eq_nil_iff]
        exact (List.append_eq_nil_iff.1 herr).1
      obtain ⟨d, hd⟩ := exists_blocksOf_tag hnone
      rw [hd] at hfirst
      exact hfirst (.component d) bs '[' rfl rfl (by decide)
    · obtain ⟨b, bs', hb, d, hd, hdb⟩ := exists_blocksOf_text (hs e rfl) r
      rw [hb] at hfirst
      exact hfirst b (bs' ++ bs) d rfl hd hdb

end Body

end Formdoc
