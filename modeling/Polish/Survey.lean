/-
**Which characters hold two operands apart.**

A character between two letters either becomes part of one operand with them, or it cuts them into
two.  The survey looks through a range of code points for those that cut.

Main definitions:

* `Polish.charsIn` — the characters whose code points lie in a range;
* `Polish.between` — the tokens of two letters with a character between them;
* `Polish.survey` — the characters of a range that cut, with the tokens they lead to.
-/

import Polish.Lexer

set_option relaxedAutoImplicit false
set_option autoImplicit false

namespace Polish

/-- The character with a code point.  Surrogates, and numbers beyond the last code point, are the
code points of no character. -/
def charOfCodePoint? (n : Nat) : Option Char := if n.isValidChar then some (Char.ofNat n) else none

/-- The characters whose code points lie between two bounds, which are included, in ascending
order. -/
def charsIn (first last : Nat) : List Char :=
  -- no character lies beyond U+10FFFF, however far the range goes
  (List.range' first (min last 0x10FFFF + 1 - first)).filterMap charOfCodePoint?

/-- The tokens of two letters with a character between them. -/
def between (c : Char) : List Token := tokenize (String.ofList ['a', c, 'b'])

/-- The characters of a range that do not join two letters to one operand, and what they make of
them. -/
def survey (first last : Nat) : List (Char × List Token) :=
  (charsIn first last).filterMap fun c =>
    if (between c).length = 1 then none else some (c, between c)

end Polish
