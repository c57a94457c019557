/-
**Which texts spell a list of tokens.**

A text spells a list of tokens when it consists of their texts in order, with blanks before,
between and behind them as one likes.  Only between two operands a blank is required, for without
it they would run together.  A token can be spelled if it is not an operand, or an operand with a
text of at least one character in which no character is blank or reserved.

Main definitions:

* `Polish.isOperandText`, `Polish.Token.isPlain` — the texts of operands, and the tokens, that can
  be spelled;
* `Polish.Spells` — `Spells ts cs`: the characters `cs` **spell the tokens** `ts`.

Main results:

* `Polish.Spells.isPlain` — only tokens that can be spelled are spelled;
* `Polish.Spells.blank_append` — blanks in front change nothing.
-/

import Polish.Lexer

set_option relaxedAutoImplicit false
set_option autoImplicit false

namespace Polish

/-- Whether all of some characters are blank. -/
def allBlank (cs : List Char) : Bool := cs.all isBlank

/-- Whether a text can be read as one operand. -/
def isOperandText (text : String) : Bool := !text.toList.isEmpty && text.toList.all isOperandChar

namespace Token

/-- Whether the token is an operand. -/
def isOperand : Token → Bool
  | .operand _ => true
  | _ => false

/-- Whether the token can be spelled. -/
def isPlain : Token → Bool
  | .operand text => isOperandText text
  | _ => true

end Token

/-- Whether two operands come first. -/
def operandsMeet : List Token → Bool
  | t :: u :: _ => t.isOperand && u.isOperand
  | _ => false

/-- The characters `cs` spell the tokens `ts`. -/
inductive Spells : (ts : List Token) → (cs : List Char) → Prop
  | nil {w : List Char} : allBlank w = true → Spells [] w
  | cons {w gap cs : List Char} {t : Token} {ts : List Token} : allBlank w = true →
      t.isPlain = true → allBlank gap = true → (operandsMeet (t :: ts) = true → gap ≠ []) →
      Spells ts cs → Spells (t :: ts) (w ++ t.text.toList ++ gap ++ cs)

namespace Spells

/-- Only tokens that can be spelled are spelled. -/
theorem isPlain {ts : List Token} {cs : List Char} (h : Spells ts cs) :
    ∀ t ∈ ts, t.isPlain = true := by
  induction h with
  | nil _ => simp
  | cons _ ht _ _ _ ih =>
      intro u hu
      rcases List.mem_cons.1 hu with rfl | hu
      · exact ht
      · exact ih u hu

/-- Blanks in front change nothing. -/
theorem blank_append {ts : List Token} {v cs : List Char} (hv : allBlank v = true)
    (h : Spells ts cs) : Spells ts (v ++ cs) := by
  have happ : ∀ w : List Char, allBlank w = true → allBlank (v ++ w) = true := by
    intro w hw
    simp only [allBlank, List.all_append, Bool.and_eq_true]
    exact ⟨hv, hw⟩
  cases h with
  | nil hw => exact nil (happ _ hw)
  | cons hw ht hg hm hs =>
      have h' := cons (happ _ hw) ht hg hm hs
      simpa only [List.append_assoc] using h'

end Spells

end Polish
