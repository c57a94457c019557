/-
**Expression trees.**

What an expression means, up to the choice of truth tables, is a tree: operands at the leaves, a
negation over one tree, a connective over two.  A tree is listed in postfix order by listing its
subtrees from left to right and then its operator, and a stack of trees is enough to read such a
listing back.

Main definitions:

* `Polish.Tree` — the trees;
* `Polish.Tree.listing` — the tokens of a tree in postfix order;
* `Polish.Tree.push?`, `Polish.Tree.ofTokens?` — reading tokens in postfix order: **one token, and
  all of them**.

Main results:

* `Polish.Tree.pushAll?_listing` — reading the listing of a tree puts that tree on the stack,
  whatever lies below and whatever follows;
* `Polish.Tree.ofTokens?_listing` — a listing is read back as the tree it lists;
* `Polish.Tree.listing_injective` — different trees have different listings.
-/

import Polish.Token

set_option relaxedAutoImplicit false
set_option autoImplicit false

namespace Polish

/-- Expression trees. -/
inductive Tree where
  | leaf (text : String)
  | neg (t : Tree)
  | binary (c : Connective) (l r : Tree)
deriving DecidableEq, Repr

namespace Tree

/-- The tokens of a tree in postfix order. -/
def listing : Tree → List Token
  | .leaf text => [.operand text]
  | .neg t => t.listing ++ [.operator .neg]
  | .binary c l r => l.listing ++ r.listing ++ [.operator (.binary c)]

/-! ### Reading a listing -/

/-- One token is read: an operand puts a leaf on the stack, an operator replaces the trees that
lie on top by one.  Fewer trees than the operator takes, or a parenthesis, cannot be read. -/
def push? : List Tree → Token → Option (List Tree)
  | stack, .operand text => some (.leaf text :: stack)
  | t :: stack, .operator .neg => some (.neg t :: stack)
  | r :: l :: stack, .operator (.binary c) => some (.binary c l r :: stack)
  | _, _ => none

/-- The stack after some tokens. -/
def pushAll? (stack : List Tree) (ts : List Token) : Option (List Tree) := ts.foldlM push? stack

/-- The tree whose listing is read, if exactly one tree is on the stack in the end. -/
def ofTokens? (ts : List Token) : Option Tree :=
  match pushAll? [] ts with
  | some [t] => some t
  | _ => none

theorem pushAll?_append (stack : List Tree) (ts us : List Token) :
    pushAll? stack (ts ++ us) = (pushAll? stack ts).bind (pushAll? · us) := by
  simp [pushAll?, List.foldlM_append]

/-- Reading **the listing of a tree** puts that tree on the stack. -/
theorem pushAll?_listing (t : Tree) (stack : List Tree) :
    pushAll? stack t.listing = some (t :: stack) := by
  induction t generalizing stack with
  | leaf text => rfl
  | neg t ih =>
      rw [listing, pushAll?_append, ih]
      rfl
  | binary c l r ihl ihr =>
      rw [listing, pushAll?_append, pushAll?_append, ihl]
      simp only [Option.bind_some]
      rw [ihr]
      rfl

theorem ofTokens?_listing (t : Tree) : ofTokens? t.listing = some t := by
  rw [ofTokens?, pushAll?_listing]

/-- Different trees have different listings. -/
theorem listing_injective {t u : Tree} (h : t.listing = u.listing) : t = u := by
  have ht := ofTokens?_listing t
  rw [h, ofTokens?_listing] at ht
  exact (Option.some.inj ht).symm

end Tree

end Polish
