/-
**From infix to postfix order.**

Tokens are read from left to right.  An operand goes to the output at once.  An operator waits on a
stack until a token comes before which it has to be written: an operator that does not bind tighter
than it, the right parenthesis of its group, or the end of the input.  A left parenthesis waits on
the same stack for its partner, and hides what lies below it.  Parentheses never reach the output.

A right parenthesis that finds no left one on the stack ends the run, and so does a left one that
is still there at the end of the input.

Main definitions:

* `Polish.Pending` — what waits on the stack;
* `Polish.Yard` — the stack, with the history so far;
* `Polish.Yard.shunt`, `Polish.Yard.finish` — **what one token does**, and what the end of the
  input does;
* `Polish.Yard.feed`, `Polish.Yard.pull` — reading a list of tokens, and reading from a source;
* `Polish.runOf`, `Polish.convert` — the run on a list of tokens, and its result.

Main results:

* `Polish.Yard.pull_eq_feed` — reading from a source is reading the list of its tokens.
-/

import Polish.Run
import Polish.Source

set_option relaxedAutoImplicit false
set_option autoImplicit false

namespace Polish

/-- What waits on the stack: an operator, or a left parenthesis. -/
inductive Pending where
  | operator (o : Operator)
  | bracket
deriving DecidableEq, Repr

namespace Pending

/-- The operator that waits here, if it is one. -/
def operator? : Pending → Option Operator
  | .operator o => some o
  | .bracket => none

/-- Whether this entry gives way to the operator `incoming`.  A parenthesis never does. -/
def yieldsTo (incoming : Operator) : Pending → Bool
  | .operator top => top.yieldsTo incoming
  | .bracket => false

/-- Whether this entry is a left parenthesis. -/
def isBracket : Pending → Bool
  | .operator _ => false
  | .bracket => true

/-- The operators among some entries. -/
def operators (entries : List Pending) : List Operator := entries.filterMap operator?

end Pending

/-- The state of a conversion between two tokens. -/
structure Yard where
  /-- What waits, the latest entry first. -/
  stack : List Pending := []
  /-- The moves made so far. -/
  moves : Array Move := #[]
  /-- The number of tokens read so far. -/
  read : Nat := 0
deriving Repr

namespace Yard

open Pending (operators)

/-- The entries above the topmost left parenthesis. -/
def innermost (y : Yard) : List Pending := y.stack.takeWhile (!·.isBracket)

/-- The topmost left parenthesis and all entries below it. -/
def enclosing (y : Yard) : List Pending := y.stack.dropWhile (!·.isBracket)

/-- What **one token** does to the state.  A right parenthesis without partner ends the run. -/
def shunt (y : Yard) : Token → Except Run Yard
  | .operand text => .ok { y with moves := y.moves.push (.passed text), read := y.read + 1 }
  | .operator o =>
      .ok
        { stack := .operator o :: y.stack.dropWhile (·.yieldsTo o)
          moves := y.moves ++ (operators (y.stack.takeWhile (·.yieldsTo o))).map (Move.yielded · o)
          read := y.read + 1 }
  | .leftParen => .ok { y with stack := .bracket :: y.stack, read := y.read + 1 }
  | .rightParen =>
      -- the operators of the group go to the output whether or not its left parenthesis is found
      let moves := y.moves ++ (operators y.innermost).map Move.closed
      match y.enclosing with
      | [] => .error { moves := moves.toList, read := y.read + 1, fault := some .unopened }
      | _ :: outer => .ok { stack := outer, moves := moves, read := y.read + 1 }

/-- What the end of the input does: all operators leave the stack, unless a left parenthesis is
left there. -/
def finish (y : Yard) : Run :=
  if y.stack.any Pending.isBracket then
    { moves := y.moves.toList, read := y.read, fault := some .unclosed }
  else
    let moves := y.moves ++ (operators y.stack).map Move.drained
    { moves := moves.toList, read := y.read, fault := none }

/-- Reads a list of tokens to its end. -/
def feed (y : Yard) : List Token → Run
  | [] => y.finish
  | t :: ts =>
    match y.shunt t with
    | .ok y' => y'.feed ts
    | .error r => r

/-- Reads at most `n` tokens from a source.  If the run ends early, nothing more is read, and the
source goes on behind the token that ended it. -/
def pull {σ : Type} [Source σ] (y : Yard) : Nat → σ → Run × σ
  | 0, s => (y.finish, s)
  | n + 1, s =>
    match Source.next s with
    | (none, s') => (y.finish, s')
    | (some t, s') =>
      match y.shunt t with
      | .ok y' => y'.pull n s'
      | .error r => (r, s')

/-- Reading from a source is reading the list of its next tokens. -/
theorem pull_eq_feed {σ : Type} [Source σ] (y : Yard) (n : Nat) (s : σ) :
    (y.pull n s).1 = y.feed (Source.take n s).1 := by
  induction n generalizing y s with
  | zero => rfl
  | succ n ih =>
      rw [pull, Source.take_succ]
      rcases Source.next s with ⟨_ | t, s'⟩
      · rfl
      · simp only [feed]
        cases y.shunt t with
        | ok y' => exact ih y' s'
        | error r => rfl

end Yard

/-- The run on a list of tokens. -/
def runOf (ts : List Token) : Run := ({} : Yard).feed ts

/-- The postfix form of a list of tokens in infix order. -/
def convert (ts : List Token) : Except Mismatch (List Token) := (runOf ts).outcome

end Polish
