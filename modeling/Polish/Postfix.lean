/-
**Postfix forms.**

In postfix order an operator stands behind its operands, and no parentheses are needed.  A postfix
form is the list of tokens that the conversion of an expression gives; its text is the texts of
the tokens with one space between neighbours.

Main definitions:

* `Polish.Postfix`, `Polish.Postfix.parse` — a postfix form, and the form of an expression;
* `Polish.Postfix.text` — the form as one line;
* `Polish.postfixTexts` — the texts of the tokens of the postfix form of an expression;
* `Polish.Postfix.agree` — whether two expressions have the same form, or fail alike.

Main results:

* `Polish.Postfix.agree_iff` — agreement is equality of what is parsed.
-/

import Polish.Lexer
import Polish.Yard

set_option relaxedAutoImplicit false
set_option autoImplicit false

namespace Polish

/-- An expression in postfix order.  The empty form is the form of a blank text. -/
structure Postfix where
  /-- The tokens from left to right. -/
  tokens : List Token := []
deriving DecidableEq, Repr

namespace Postfix

/-- The postfix form of the expression written in a text. -/
def parse (expression : String) : Except Mismatch Postfix :=
  (convert (tokenize expression)).map Postfix.mk

/-- The number of tokens. -/
def size (p : Postfix) : Nat := p.tokens.length

/-- Whether there are no tokens. -/
def isEmpty (p : Postfix) : Bool := p.tokens.isEmpty

/-- The texts of the tokens. -/
def texts (p : Postfix) : List String := p.tokens.map Token.text

/-- The form as a line: the texts of its tokens, divided by single spaces. -/
def text (p : Postfix) : String := " ".intercalate p.texts

instance : ToString Postfix := ⟨text⟩

/-! ### Comparing expressions -/

/-- Whether two texts have the same postfix form, or fail for the same reason. -/
def agree (a b : String) : Bool :=
  match parse a, parse b with
  | .ok p, .ok q => p == q
  | .error m, .error n => m == n
  | _, _ => false

theorem agree_iff {a b : String} : agree a b = true ↔ parse a = parse b := by
  unfold agree
  rcases parse a with m | p <;> rcases parse b with n | q <;> simp

end Postfix

/-- The texts of the postfix form of an expression. -/
def postfixTexts (expression : String) : Except Mismatch (List String) :=
  (Postfix.parse expression).map Postfix.texts

end Polish
