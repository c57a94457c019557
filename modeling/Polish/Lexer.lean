/-
**Cutting a text into tokens.**

A lexer is a text that is cut into tokens as they are asked for.  Blanks separate operands and mean
nothing else; a reserved character — an operator or a parenthesis — is a token by itself; any other
run of characters is an operand, as long as it can be.  Every text can be cut, so there are no
errors here.

A lexer remembers nothing but the characters it has not read.  After an operand these start behind
the one blank that ended it, if a blank did, and with the reserved character that ended it
otherwise.

Main definitions:

* `Polish.isOperandChar` — the characters of which operands are made;
* `Polish.Lexer`, `Polish.Lexer.next` — a text to be cut, and **one step of cutting**;
* `Polish.tokenize` — all the tokens of a text.

Main results:

* `Polish.Lexer.length_next_lt` — a step that gives a token reads at least one character, so a
  lexer is a `Polish.Source`.
-/

import Polish.Blank
import Polish.Source

set_option relaxedAutoImplicit false
set_option autoImplicit false

namespace Polish

/-- Whether a character can be part of an operand: it is neither blank nor reserved. -/
def isOperandChar (c : Char) : Bool := !isBlank c && !isReserved c

/-- A text that is cut into tokens as they are asked for. -/
structure Lexer where
  /-- The characters that have not been read. -/
  unread : List Char
deriving DecidableEq, Repr

namespace Lexer

/-- A lexer at the start of a text. -/
def ofString (s : String) : Lexer := ⟨s.toList⟩

/-- The text without its first character if that one is blank. -/
def dropBlank : List Char → List Char
  | [] => []
  | c :: cs => if isBlank c then cs else c :: cs

/-- A **single step**: blanks are passed over; what follows them is the end of the text, or a
reserved character, or the longest operand that starts here, and then one blank behind it is read
too. -/
def next (l : Lexer) : Option Token × Lexer :=
  match l.unread.dropWhile isBlank with
  | [] => (none, ⟨[]⟩)
  | c :: cs =>
    match Token.ofReserved? c with
    | some t => (some t, ⟨cs⟩)
    | none =>
      -- an operand starts at `c`
      (some (.operand (String.ofList ((c :: cs).takeWhile isOperandChar))),
        ⟨dropBlank ((c :: cs).dropWhile isOperandChar)⟩)

/-! ### Every step reads something -/

theorem length_dropBlank_le (cs : List Char) : (dropBlank cs).length ≤ cs.length := by
  cases cs with
  | nil => simp [dropBlank]
  | cons c cs => simp only [dropBlank]; split <;> simp

/-- The character at which passing over blanks stops is not blank. -/
theorem not_isBlank_of_dropWhile {cs ds : List Char} {c : Char}
    (h : cs.dropWhile isBlank = c :: ds) : isBlank c = false := by
  have hne : cs.dropWhile isBlank ≠ [] := by rw [h]; simp
  simpa [h] using List.head_dropWhile_not isBlank hne

/-- An operand starts with the character that is found there. -/
theorem isOperandChar_of_next {cs ds : List Char} {c : Char}
    (h : cs.dropWhile isBlank = c :: ds) (hc : Token.ofReserved? c = none) :
    isOperandChar c = true := by
  simp [isOperandChar, not_isBlank_of_dropWhile h, isReserved, hc]

theorem length_next_lt {l : Lexer} {t : Token} (h : l.next.1 = some t) :
    l.next.2.unread.length < l.unread.length := by
  have hle := (List.dropWhile_suffix isBlank (l := l.unread)).length_le
  unfold next at h ⊢
  split at h
  · simp at h
  · next c cs hcs =>
      rw [hcs] at hle
      simp only [List.length_cons] at hle
      split at h
      · simp only; omega
      · next hc =>
          have h₁ := length_dropBlank_le ((c :: cs).dropWhile isOperandChar)
          have h₂ := (List.dropWhile_suffix isOperandChar (l := cs)).length_le
          rw [List.dropWhile_cons_of_pos (isOperandChar_of_next hcs hc)] at h₁
          simp only [List.dropWhile_cons_of_pos (isOperandChar_of_next hcs hc)]
          omega

theorem unread_of_next_eq_none {l : Lexer} (h : l.next.1 = none) : l.next.2 = ⟨[]⟩ := by
  unfold next at h ⊢
  split at h
  · rfl
  · split at h <;> simp at h

instance : Source Lexer where
  next := next
  size l := l.unread.length
  size_next_lt := length_next_lt
  next_ended h := by rw [unread_of_next_eq_none h]; rfl

end Lexer

/-- The tokens of a text. -/
def tokenize (s : String) : List Token := Source.tokens (Lexer.ofString s)

end Polish
