/-
**Editing a list of tokens.**

A buffer is a list of tokens that is changed step by step.  Text is cut into tokens and added at
the end, tokens are added and removed there, and the whole list can be converted, or written out
and cut into tokens again.  The only step that can fail is a conversion, and then the buffer stays
as it was.

Main definitions:

* `Polish.Edit`, `Polish.Edit.apply` — a change, and what it makes of the tokens;
* `Polish.edits` — the results of a series of changes.

Main results:

* `Polish.Edit.apply_isOk` — everything but a conversion succeeds.
-/

import Polish.Lexer
import Polish.Yard

set_option relaxedAutoImplicit false
set_option autoImplicit false

namespace Polish

/-- A change of a list of tokens. -/
inductive Edit where
  /-- Add the tokens of a text. -/
  | lex (text : String)
  /-- Add a token. -/
  | push (t : Token)
  /-- Remove the last token, if there is one. -/
  | pop
  /-- Remove all tokens. -/
  | clear
  /-- Put the tokens into postfix order. -/
  | convert
  /-- Write the tokens with a text between neighbours, and cut the result. -/
  | relex (separator : String)
deriving DecidableEq, Repr

namespace Edit

/-- The tokens after a change. -/
def apply (ts : List Token) : Edit → Except Mismatch (List Token)
  | .lex text => .ok (ts ++ tokenize text)
  | .push t => .ok (ts ++ [t])
  | .pop => .ok ts.dropLast
  | .clear => .ok []
  | .convert => Polish.convert ts
  | .relex separator => .ok (tokenize (separator.intercalate (ts.map Token.text)))

theorem apply_isOk {e : Edit} (h : e ≠ .convert) (ts : List Token) : (e.apply ts).isOk = true := by
  cases e with
  | convert => exact absurd rfl h
  | _ => rfl

end Edit

/-- The results of a series of changes.  A change that fails leaves the tokens to the next one. -/
def edits (ts : List Token) : List Edit → List (Except Mismatch (List Token))
  | [] => []
  | e :: es =>
    match e.apply ts with
    | .ok ts' => .ok ts' :: edits ts' es
    | .error m => .error m :: edits ts es

end Polish
