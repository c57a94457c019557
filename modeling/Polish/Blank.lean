/-
**Blank characters.**

A character is blank when it has the Unicode property White_Space.  The property has not changed
since Unicode 6.3; it covers 25 code points in ten ranges, and leaves out the information
separators U+001C to U+001F, the Mongolian vowel separator U+180E, the zero-width characters and
the byte order mark U+FEFF.

Main definitions:

* `Polish.blankRanges` — the ranges of the property;
* `Polish.isBlank` — whether a character lies in one of them.

Main results:

* `Polish.isBlank_of_isWhitespace` — every ASCII blank is in the table.
-/

set_option relaxedAutoImplicit false
set_option autoImplicit false

namespace Polish

/-- The code points of the property White_Space, as closed ranges in ascending order. -/
def blankRanges : List (Nat × Nat) :=
  [(0x09, 0x0D), (0x20, 0x20), (0x85, 0x85), (0xA0, 0xA0), (0x1680, 0x1680), (0x2000, 0x200A),
    (0x2028, 0x2029), (0x202F, 0x202F), (0x205F, 0x205F), (0x3000, 0x3000)]

/-- Whether a character is blank: whether it has the property White_Space. -/
def isBlank (c : Char) : Bool := blankRanges.any fun r => r.1 ≤ c.toNat && c.toNat ≤ r.2

/-- The table extends the whitespace of ASCII. -/
theorem isBlank_of_isWhitespace {c : Char} (h : c.isWhitespace = true) : isBlank c = true := by
  simp only [Char.isWhitespace, Bool.or_eq_true, decide_eq_true_eq] at h
  rcases h with ((h | h) | h) | h <;> subst h <;> decide

example : (blankRanges.map fun r => r.2 + 1 - r.1).sum = 25 := by decide

end Polish
