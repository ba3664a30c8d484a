/-!
# Sets of characters as code point ranges

The character classes of this library that come from the Unicode standard are tables of closed
ranges of code points, kept in ascending order.
-/

namespace Homoicon.Text

/-- A set of characters as closed ranges of code points. -/
abbrev Ranges := Array (Nat × Nat)

/-- Whether some range of the table holds the code point of `c`. -/
def Ranges.covers (rs : Ranges) (c : Char) : Bool :=
  rs.any fun r => r.1 ≤ c.toNat && c.toNat ≤ r.2

theorem Ranges.covers_iff {rs : Ranges} {c : Char} :
    rs.covers c = true ↔ ∃ r ∈ rs, r.1 ≤ c.toNat ∧ c.toNat ≤ r.2 := by
  simp only [Ranges.covers, Array.any_eq_true', Bool.and_eq_true, decide_eq_true_eq]

end Homoicon.Text
