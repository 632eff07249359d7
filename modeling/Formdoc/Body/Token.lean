/-
Cutting a body into runs of text and component tags.

A tag opens with `[%` and runs to the first `/%` after it, or to the end of the
body; a right bracket directly behind the `/%` belongs to the tag.  All else is
text.  A token keeps what it was written with: `raw` gives it back, and the raw
texts of the tokens of a body, joined, are the body (`flatten_raw_tokens`).
-/
import Formdoc.Text.Search
import Formdoc.Text.Lines

namespace Formdoc

/-- How a tag ends. -/
inductive Closing where
  | bracket
  | slash
  | missing
deriving DecidableEq, Repr

/-- A run of text, or a tag with all that stands between its marks. -/
inductive Token where
  | text (value : Text)
  | tag (content : Text) (closing : Closing)
deriving DecidableEq, Repr

/-- The mark that opens a tag. -/
def openMark : Text := ['[', '%']

/-- The mark that closes a tag. -/
def closeMark : Text := ['/', '%']

/-- The text that ends a tag. -/
def Closing.text : Closing → Text
  | bracket => closeMark ++ [']']
  | slash => closeMark
  | missing => []

namespace Token

/-- The token as it is written. -/
def raw : Token → Text
  | text s => s
  | tag content closing => openMark ++ content ++ closing.text

/-- What the token says: the text, or the tag's content without the blanks around it. -/
def value : Token → Text
  | text s => s
  | tag content _ => Text.trim content

/-- The tag runs to the end of the body. -/
def isUnterminated : Token → Bool
  | tag _ .missing => true
  | _ => false

/-- The tag whose opening mark has been read, and the rest. -/
def readTag (s : Text) : Token × Text :=
  match Text.cutAt closeMark s with
  | none => (tag s .missing, [])
  | some (content, ']' :: r) => (tag content .bracket, r)
  | some (content, r) => (tag content .slash, r)

/-- The text up to the next opening mark, and the rest from that mark on. -/
def readRun (s : Text) : Text × Text :=
  match Text.cutAt openMark s with
  | none => (s, [])
  | some (run, r) => (run, openMark ++ r)

theorem append_readTag (s : Text) : (readTag s).1.raw ++ (readTag s).2 = openMark ++ s := by
  unfold readTag
  split
  · simp [raw, Closing.text]
  · rename_i h
    simp [raw, Closing.text, Text.eq_of_cutAt h]
  · rename_i h
    simp [raw, Closing.text, Text.eq_of_cutAt h]

theorem append_readRun (s : Text) : (readRun s).1 ++ (readRun s).2 = s := by
  unfold readRun
  split
  · simp
  · rename_i h
    simp [Text.eq_of_cutAt h]

theorem length_readTag_le (s : Text) : (readTag s).2.length ≤ s.length := by
  have h := congrArg List.length (append_readTag s)
  have hraw : openMark.length ≤ (readTag s).1.raw.length := by
    unfold readTag
    split <;> simp [raw]
  simp only [List.length_append] at h
  omega

theorem length_readRun_le (s : Text) : (readRun s).2.length ≤ s.length := by
  have h := congrArg List.length (append_readRun s)
  simp only [List.length_append] at h
  omega

end Token

/-- The tokens of a body. -/
def tokens (s : Text) : List Token :=
  match s with
  | [] => []
  | c :: r =>
    match _mark : Text.after? openMark (c :: r) with
    | some r' => (Token.readTag r').1 :: tokens (Token.readTag r').2
    | none => .text (c :: (Token.readRun r).1) :: tokens (Token.readRun r).2
termination_by s.length
decreasing_by
  · have h1 := Text.length_after? _mark
    have h2 := Token.length_readTag_le r'
    simp only [openMark, List.length_cons, List.length_nil] at h1
    simp only [List.length_cons]
    omega
  · have h := Token.length_readRun_le r
    simp only [List.length_cons]
    omega

theorem flatten_raw_tokens (s : Text) : (tokens s).flatMap Token.raw = s := by
  fun_induction tokens s with
  | case1 => rfl
  | case2 c r r' h ih =>
    rw [List.flatMap_cons, ih, Token.append_readTag]
    exact (Text.after?_eq_some_iff.1 h).symm
  | case3 c r h ih =>
    rw [List.flatMap_cons, ih]
    simp [Token.raw, Token.append_readRun]

/-- The tokens of a body, each with the place where it starts. -/
def locatedTokens (s : Text) : List (Located Token) :=
  Located.spread Token.raw Position.first (tokens s)

end Formdoc
