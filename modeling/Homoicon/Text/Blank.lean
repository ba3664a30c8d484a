import Homoicon.Text.Ranges

/-!
# Blank characters

The `White_Space` property of Unicode, which decides where a token ends, and the trimming of
blank ends.
-/

namespace Homoicon.Text

/-- Code points of the `White_Space` property, in ascending order. -/
def blankRanges : Ranges := #[
  (0x9, 0xd), (0x20, 0x20), (0x85, 0x85), (0xa0, 0xa0), (0x1680, 0x1680), (0x2000, 0x200a),
  (0x2028, 0x2029), (0x202f, 0x202f), (0x205f, 0x205f), (0x3000, 0x3000)]

/-- Whether `c` separates tokens without being part of one. -/
def isBlank (c : Char) : Bool :=
  if c.toNat < 128 then decide (c.toNat = 32 ∨ (9 ≤ c.toNat ∧ c.toNat ≤ 13))
  else blankRanges.covers c

/-- `s` without the blank characters at its two ends. -/
def trimBlank (s : String) : String :=
  let rest := s.toList.dropWhile isBlank
  String.ofList (rest.reverse.dropWhile isBlank).reverse

theorem isBlank_newline : isBlank '\n' = true := by decide

theorem isBlank_space : isBlank ' ' = true := by decide

theorem isBlank_of_isWhitespace {c : Char} (h : c.isWhitespace = true) : isBlank c = true := by
  simp only [Char.isWhitespace, Bool.or_eq_true, decide_eq_true_eq] at h
  rcases h with ((rfl | rfl) | rfl) | rfl <;> decide

end Homoicon.Text
