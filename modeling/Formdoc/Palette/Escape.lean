/-
Character escapes in icons.

A backslash, `U` and eight hexadecimal digits, or `u` and four, stand for the
character of that code point.  An escape whose code point is no character stays
as it is.  The long escapes of a text are decoded first, and then the short
escapes of what results.
-/
import Formdoc.Text.CodePoint
import Formdoc.Text.Search

namespace Formdoc.Icon

/-- The text with the escapes of one letter decoded, which has `count` digits. -/
def decodeKind (letter : Char) (count : Nat) : Text → Text
  | [] => []
  | c :: s =>
    match (if c = '\\' then Text.after? [letter] s else none).bind (Text.hexPrefix? count) with
    | some (n, _) =>
      match Text.charOf? n with
      | some d => d :: decodeKind letter count (s.drop (count + 1))
      | none => c :: s.take (count + 1) ++ decodeKind letter count (s.drop (count + 1))
    | none => c :: decodeKind letter count s
termination_by s => s.length
decreasing_by
  all_goals simp only [List.length_drop, List.length_cons]; omega

/-- The icon that a text denotes. -/
def decode (s : Text) : Text :=
  decodeKind 'u' 4 (decodeKind 'U' 8 s)

end Formdoc.Icon
