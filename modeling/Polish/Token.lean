/-
**Tokens.**

A token is an operand, an operator or a parenthesis.  An operand carries its text, which nothing
restricts: the text of an operand may be empty or look like another token, and the operand stays
an operand.

Main definitions:

* `Polish.Token` — the four kinds of token;
* `Polish.Token.text` — how a token is written;
* `Polish.isReserved` — whether a character is always a token by itself;
* `Polish.isTruthText` — whether an operand stands for a truth value.  Nothing else in the library
  asks for it: operands are passed through as they are.

Main results:

* `Polish.isReserved_iff` — the reserved characters are the six operators and the two parentheses;
* `Polish.Token.text_of_ofReserved?` — the token of a reserved character is written with it.
-/

import Polish.Operator

set_option relaxedAutoImplicit false
set_option autoImplicit false

namespace Polish

/-- A token of an expression. -/
inductive Token where
  /-- An operand with its text. -/
  | operand (text : String)
  | operator (o : Operator)
  | leftParen
  | rightParen
deriving DecidableEq, Repr

namespace Token

/-- How the token is written: an operand as its text, all else as its one character. -/
def text : Token → String
  | .operand text => text
  | .operator o => o.text
  | .leftParen => "("
  | .rightParen => ")"

instance : ToString Token := ⟨text⟩

/-- Whether the token is a parenthesis. -/
def isParen : Token → Bool
  | .leftParen => true
  | .rightParen => true
  | _ => false

/-- The tokens that are always one character of their own: the parentheses and the operators. -/
def ofReserved? (c : Char) : Option Token :=
  if c = '(' then some .leftParen
  else if c = ')' then some .rightParen
  else (Operator.ofSymbol? c).map .operator

end Token

/-! ### Reserved characters -/

/-- Whether a character is always a token by itself. -/
def isReserved (c : Char) : Bool := (Token.ofReserved? c).isSome

/-- The reserved characters are the six operators and the two parentheses. -/
theorem isReserved_iff {c : Char} :
    isReserved c = true ↔ c ∈ ['(', ')', '|', '&', '=', '+', '-', '!'] := by
  constructor
  · intro h
    unfold isReserved Token.ofReserved? at h
    split at h
    · next hc => simp [hc]
    · split at h
      · next hc => simp [hc]
      · obtain ⟨t, ht⟩ := Option.isSome_iff_exists.1 h
        obtain ⟨o, ho, -⟩ := Option.map_eq_some_iff.1 ht
        rw [Operator.ofSymbol?_eq_some_iff.1 ho]
        cases o with
        | binary c => cases c <;> decide
        | neg => decide
  · intro h
    simp only [List.mem_cons, List.not_mem_nil, or_false] at h
    rcases h with rfl | rfl | rfl | rfl | rfl | rfl | rfl | rfl <;> rfl

/-- The token read from a reserved character is written with that character. -/
theorem Token.text_of_ofReserved? {c : Char} {t : Token} (h : ofReserved? c = some t) :
    t.text = c.toString := by
  unfold ofReserved? at h
  split at h
  · next hc => cases h; rw [hc]; rfl
  · split at h
    · next hc => cases h; rw [hc]; rfl
    · obtain ⟨o, ho, rfl⟩ := Option.map_eq_some_iff.1 h
      rw [Operator.ofSymbol?_eq_some_iff.1 ho]
      rfl

/-- An operand is never read from a single reserved character. -/
theorem Token.ofReserved?_ne_operand (c : Char) (text : String) :
    ofReserved? c ≠ some (.operand text) := by
  unfold ofReserved?
  split
  · simp
  · split <;> simp

/-! ### Truth values -/

/-- The operand that stands for a truth value. -/
def truthText : Bool → String
  | true => "T"
  | false => "F"

/-- Whether an operand stands for one of the two truth values. -/
def isTruthText (text : String) : Bool := text == truthText true || text == truthText false

theorem isTruthText_iff {text : String} : isTruthText text = true ↔ ∃ b, truthText b = text := by
  constructor
  · intro h
    rcases Bool.or_eq_true_iff.1 h with h | h
    · exact ⟨true, (eq_of_beq h).symm⟩
    · exact ⟨false, (eq_of_beq h).symm⟩
  · rintro ⟨b, rfl⟩
    cases b <;> rfl

end Polish
