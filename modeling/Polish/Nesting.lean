/-
**How parentheses balance.**

The excess of a list of tokens is the number of its right parentheses less the number of its left
ones.  While tokens are read, an excess above zero means that a right parenthesis came too early;
an excess below zero at the end means that a left parenthesis was never closed.  The same count can
be made on the characters of a text.

Main definitions:

* `Polish.surplus` — how much more often one value occurs in a list than another;
* `Polish.excess`, `Polish.charExcess` — the excess of tokens, and of characters;
* `Polish.Matched`, `Polish.Balanced` — no beginning of the tokens, or of the characters, has an
  excess, and the whole has none either way.

Main results:

* `Polish.surplus_append` — the excess of two lists one after the other is the sum of theirs;
* `Polish.excess_cons` — what a single token adds.
-/

import Polish.Token

set_option relaxedAutoImplicit false
set_option autoImplicit false

namespace Polish

/-- How much more often `right` occurs in a list than `left`. -/
def surplus {α : Type} [BEq α] (left right : α) (xs : List α) : Int :=
  (xs.count right : Int) - (xs.count left : Int)

@[simp] theorem surplus_nil {α : Type} [BEq α] (left right : α) :
    surplus left right ([] : List α) = 0 := rfl

theorem surplus_append {α : Type} [BEq α] (left right : α) (xs ys : List α) :
    surplus left right (xs ++ ys) = surplus left right xs + surplus left right ys := by
  simp only [surplus, List.count_append]
  omega

/-- The number of right parentheses less the number of left ones. -/
def excess (ts : List Token) : Int := surplus .leftParen .rightParen ts

/-- The same count on the characters of a text. -/
def charExcess (cs : List Char) : Int := surplus '(' ')' cs

/-- No beginning has more right parentheses than left ones, and in the whole there are as many. -/
def Matched (ts : List Token) : Prop :=
  (∀ k ≤ ts.length, excess (ts.take k) ≤ 0) ∧ excess ts = 0

instance (ts : List Token) : Decidable (Matched ts) := by
  unfold Matched
  infer_instance

/-- The same of the characters of a text. -/
def Balanced (cs : List Char) : Prop :=
  (∀ k ≤ cs.length, charExcess (cs.take k) ≤ 0) ∧ charExcess cs = 0

instance (cs : List Char) : Decidable (Balanced cs) :=
  inferInstanceAs
    (Decidable ((∀ k ≤ cs.length, charExcess (cs.take k) ≤ 0) ∧ charExcess cs = 0))

/-- What a token adds to the excess. -/
def Token.weight : Token → Int
  | .operand _ => 0
  | .operator _ => 0
  | .leftParen => -1
  | .rightParen => 1

@[simp] theorem excess_nil : excess [] = 0 := rfl

theorem excess_append (ts us : List Token) : excess (ts ++ us) = excess ts + excess us :=
  surplus_append _ _ ts us

/-- What a single token adds. -/
theorem excess_cons (t : Token) (ts : List Token) : excess (t :: ts) = t.weight + excess ts := by
  have h : excess [t] = t.weight := by
    cases t with
    | operand text => simp [excess, surplus, Token.weight]
    | operator o => simp [excess, surplus, Token.weight]
    | leftParen => rfl
    | rightParen => rfl
  rw [← h, ← excess_append]
  rfl

end Polish
