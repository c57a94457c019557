/-
**The operators of boolean expressions.**

An expression is built from operands with five binary connectives and one unary operator.  Each
operator is written with a single character, has a precedence, and groups to the left or to the
right among operators of its own precedence.  Nothing here gives an operator a truth table:
expressions are reordered, never evaluated.

Main definitions:

* `Polish.Connective`, `Polish.Operator` — the five binary connectives, and the operators;
* `Polish.Operator.precedence`, `Polish.Operator.associativity` — how tightly an operator binds
  and to which side it groups;
* `Polish.Operator.symbol`, `Polish.Operator.ofSymbol?` — the character of an operator and back;
* `Polish.Operator.yieldsTo` — **the precedence rule**: whether an operator that waits has to give
  way to an operator that comes in.

Main results:

* `Polish.Operator.ofSymbol?_eq_some_iff` — a character is the symbol of at most one operator;
* `Polish.Operator.yieldsTo_neg`, `Polish.Operator.yieldsTo_binary` — nothing gives way to a
  negation, and to a connective everything does that binds at least as tightly.
-/

set_option relaxedAutoImplicit false
set_option autoImplicit false

namespace Polish

/-- A binary connective. -/
inductive Connective where
  /-- Disjunction, written `|`. -/
  | disj
  /-- Conjunction, written `&`. -/
  | conj
  /-- Equality, written `=`. -/
  | equal
  /-- Greater than, written `+`. -/
  | greater
  /-- Less than, written `-`. -/
  | less
deriving DecidableEq, Repr

/-- The direction in which operators of equal precedence group. -/
inductive Associativity where
  /-- Read `a ∘ b ∘ c` as `(a ∘ b) ∘ c`. -/
  | left
  /-- Read `a ∘ b ∘ c` as `a ∘ (b ∘ c)`. -/
  | right
deriving DecidableEq, Repr

/-- An operator of the language: a binary connective, or the negation `!`, which stands before its
only operand. -/
inductive Operator where
  | binary (c : Connective)
  | neg
deriving DecidableEq, Repr

/-! ### Precedence -/

/-- How tightly a connective binds: disjunction is the loosest, and the two comparisons share the
tightest level. -/
def Connective.precedence : Connective → Nat
  | .disj => 0
  | .conj => 1
  | .equal => 2
  | .greater => 3
  | .less => 3

theorem Connective.precedence_le (c : Connective) : c.precedence ≤ 3 := by
  cases c <;> decide

namespace Operator

/-- How tightly an operator binds.  Negation binds tighter than every connective. -/
def precedence : Operator → Nat
  | .binary c => c.precedence
  | .neg => 4

/-- The connectives group to the left, negation to the right. -/
def associativity : Operator → Associativity
  | .binary _ => .left
  | .neg => .right

/-- Whether the operator takes a single operand. -/
def isUnary : Operator → Bool
  | .binary _ => false
  | .neg => true

@[simp] theorem precedence_binary (c : Connective) : (binary c).precedence = c.precedence := rfl

@[simp] theorem precedence_neg : neg.precedence = 4 := rfl

/-- The **precedence rule**: the operator `top` leaves its place to `incoming` when it binds
tighter, or, if `incoming` groups to the left, at least as tightly. -/
def yieldsTo (top incoming : Operator) : Bool :=
  match incoming.associativity with
  | .left => incoming.precedence ≤ top.precedence
  | .right => incoming.precedence < top.precedence

@[simp] theorem yieldsTo_neg (top : Operator) : top.yieldsTo neg = false := by
  cases top with
  | binary c => cases c <;> rfl
  | neg => rfl

@[simp] theorem yieldsTo_binary (top : Operator) (c : Connective) :
    top.yieldsTo (binary c) = decide (c.precedence ≤ top.precedence) := rfl

/-- What gives way gives way to a connective, and binds at least as tightly. -/
theorem yieldsTo_iff {top incoming : Operator} :
    top.yieldsTo incoming = true ↔
      ∃ c : Connective, incoming = .binary c ∧ c.precedence ≤ top.precedence := by
  cases incoming with
  | binary c => simp
  | neg => simp

/-- What stands its ground against a connective is looser than it. -/
theorem yieldsTo_binary_eq_false_iff {top : Operator} {c : Connective} :
    top.yieldsTo (binary c) = false ↔ top.precedence < c.precedence := by
  rw [yieldsTo_binary, decide_eq_false_iff_not, Nat.not_le]

/-! ### Symbols -/

/-- The character with which an operator is written. -/
def symbol : Operator → Char
  | .binary .disj => '|'
  | .binary .conj => '&'
  | .binary .equal => '='
  | .binary .greater => '+'
  | .binary .less => '-'
  | .neg => '!'

/-- An operator as a text of one character. -/
def text (o : Operator) : String := o.symbol.toString

/-- All operators, from the loosest to the tightest. -/
def all : List Operator :=
  [binary .disj, binary .conj, binary .equal, binary .greater, binary .less, neg]

/-- The symbols with the operators they stand for, in the order of their code points. -/
def table : List (Char × Operator) :=
  [('!', neg), ('&', binary .conj), ('+', binary .greater), ('-', binary .less),
    ('=', binary .equal), ('|', binary .disj)]

/-- The operator written with the character `c`, if there is one. -/
def ofSymbol? (c : Char) : Option Operator := table.lookup c

theorem ofSymbol?_symbol (o : Operator) : ofSymbol? o.symbol = some o := by
  cases o with
  | binary c => cases c <;> rfl
  | neg => rfl

theorem fst_of_mem_table : ∀ p ∈ table, p.1 = p.2.symbol := by decide

theorem mem_all (o : Operator) : o ∈ all := by
  cases o with
  | binary c => cases c <;> decide
  | neg => decide

/-- A character is the symbol of at most one operator, and reading it back finds that one. -/
theorem ofSymbol?_eq_some_iff {c : Char} {o : Operator} :
    ofSymbol? c = some o ↔ c = o.symbol := by
  constructor
  · intro h
    obtain ⟨l₁, l₂, hl, -⟩ := List.lookup_eq_some_iff.1 h
    exact fst_of_mem_table (c, o) (by rw [hl]; simp)
  · rintro rfl
    exact ofSymbol?_symbol o

end Operator

end Polish
