/-
When setting a field is refused.

There are three reasons, looked for in this order: a tag that runs to the end of
the body, blank tags, and no metadata (`setField?_eq`).  Each can be told from
the text: no closing mark follows the last place where a tag opens in the body;
a tag of the body says nothing; or there is no front matter, or none of the lines
of its block is an entry (`Regions.isEmpty_metadata_iff`).

So whether a field is set, and what the refusal is, depends on the text of the
document alone (`setField?_refused`).
-/
import Formdoc.Proofs.Body.Openings
import Formdoc.Proofs.Document.Diagnostics
import Formdoc.Proofs.Document.Edit
import Formdoc.Proofs.Regions.Account

namespace Formdoc

open Text

namespace Regions

/-- The text has no front matter, or no line of its block is an entry. -/
def LacksEntries (source : Text) : Prop :=
  (¬ ∃ f : Framing, f.Of source) ∨ ∃ f : Framing, f.Foremost source ∧
    ∀ l ∈ lines f.block, ∀ key raw, ¬ Metadata.IsEntry (dropReturn l) key raw

/-- No metadata is read exactly from a text that lacks entries. -/
theorem isEmpty_metadata_iff {source : Text} :
    (read source).metadata.isEmpty = true ↔ LacksEntries source := by
  cases hfront : frontMatter? source with
  | none =>
    rw [read_of_none hfront]
    exact iff_of_true rfl (.inl (frontMatter?_eq_none_iff.1 hfront))
  | some front =>
    obtain ⟨f, hf, rfl⟩ := exists_foremost hfront
    rw [read_of_frontMatter hfront]
    refine Metadata.isEmpty_read_iff.trans ⟨fun h => .inr ⟨f, hf, h⟩, ?_⟩
    rintro (hnone | ⟨g, hg, h⟩)
    · exact absurd ⟨f, hf.of⟩ hnone
    · exact hg.eq hf ▸ h

end Regions

namespace Document

/-- The three reasons not to set a field, in the order in which they are looked for. -/
theorem setField?_eq (source name : Text) (value : Json) :
    setField? source name value =
      match unterminatedTag? (Regions.read source).body with
      | some p => .error (.unterminated p)
      | none =>
        if Body.blankTags (Regions.read source).body = [] then
          if (Regions.read source).metadata.isEmpty then .error .missingMetadata
          else .ok (write (withField source name value))
        else
          .error (.invalid ((Body.blankTags (Regions.read source).body).map
            fun t => .emptyTag t.position)) := by
  unfold setField?
  cases unterminatedTag? (Regions.read source).body with
  | some p => rfl
  | none =>
    rw [result_read]
    by_cases hblank : Body.blankTags (Regions.read source).body = []
    · rw [if_pos hblank, if_pos hblank]
      rfl
    · rw [if_neg hblank, if_neg hblank]

/-- Setting a field is refused for a tag that runs to the end of the body, whose place is reported;
else for blank tags, each of which is reported; else for want of metadata. Otherwise the field is
set. The name and the value of the field have no part in this. -/
theorem setField?_refused (source name : Text) (value : Json) :
    (∀ p, setField? source name value = .error (.unterminated p) ↔
        ∃ before after, Body.OpensLast (Regions.read source).body before after ∧
          ¬ closeMark <:+: after ∧ p = Position.behind before) ∧
      (∀ errors, setField? source name value = .error (.invalid errors) ↔
        ¬ Body.OpenEnded (Regions.read source).body ∧
          Body.blankTags (Regions.read source).body ≠ [] ∧
          errors = (Body.blankTags (Regions.read source).body).map
            fun t => .emptyTag t.position) ∧
      (setField? source name value = .error .missingMetadata ↔
        ¬ Body.OpenEnded (Regions.read source).body ∧
          Body.blankTags (Regions.read source).body = [] ∧ Regions.LacksEntries source) ∧
      ((∃ text, setField? source name value = .ok text) ↔
        ¬ Body.OpenEnded (Regions.read source).body ∧
          Body.blankTags (Regions.read source).body = [] ∧ ¬ Regions.LacksEntries source) ∧
      ∀ name' value' e,
        setField? source name value = .error e ↔ setField? source name' value' = .error e := by
  simp only [setField?_eq source, ← Body.unterminatedTag?_eq_some_iff,
    ← Body.unterminatedTag?_eq_none_iff_openEnded, ← Regions.isEmpty_metadata_iff]
  cases unterminatedTag? (Regions.read source).body with
  | some p => simp
  | none =>
    by_cases hblank : Body.blankTags (Regions.read source).body = []
    · cases (Regions.read source).metadata.isEmpty <;> simp [hblank]
    · simp only [hblank, ↓reduceIte, Except.error.injEq, reduceCtorEq, implies_true,
        EditError.invalid.injEq, ne_eq, not_false_eq_true, true_and, false_and, and_false,
        exists_const, and_true]
      exact fun errors => eq_comm

example : setField? "[% /%] [% A".toList "k".toList .null = .error (.unterminated ⟨1, 8⟩) := by
  decide +kernel

end Document

end Formdoc
