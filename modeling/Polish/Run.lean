/-
**What happens in a conversion.**

Reordering a sequence of tokens moves operands and operators to the output one after another.  A
run is the history of these moves, with the number of tokens that were read and with what went
wrong, if anything did.  The result of the conversion and its log are two views of that one
history.

Main definitions:

* `Polish.Move` — an operand or operator goes to the output, and why;
* `Polish.Run` — the moves in their order, the tokens read, and the fault;
* `Polish.Run.output`, `Polish.Run.outcome` — the tokens in the order in which they were moved,
  and the result of the conversion: these tokens, or the fault;
* `Polish.Record`, `Polish.Run.log` — the log of a run: **one record for every operator that gives
  way to a token, and a closing one**;
* `Polish.Record.level`, `Polish.Record.message` — how a record is written.
-/

import Polish.Mismatch
import Polish.Token

set_option relaxedAutoImplicit false
set_option autoImplicit false

namespace Polish

/-- A token is moved to the output. -/
inductive Move where
  /-- An operand goes there at once. -/
  | passed (text : String)
  /-- The operator `top`, which waited, gives way to the operator `incoming`. -/
  | yielded (top incoming : Operator)
  /-- The operator `top`, which waited, is reached by a right parenthesis. -/
  | closed (top : Operator)
  /-- The operator `top` waited until the end of the input. -/
  | drained (top : Operator)
deriving DecidableEq, Repr

/-- The token that is moved. -/
def Move.token : Move → Token
  | .passed text => .operand text
  | .yielded top _ => .operator top
  | .closed top => .operator top
  | .drained top => .operator top

/-- The history of a conversion. -/
structure Run where
  /-- The moves, in the order in which they were made. -/
  moves : List Move
  /-- The number of tokens that were read. -/
  read : Nat
  /-- What went wrong, if anything did. -/
  fault : Option Mismatch
deriving DecidableEq, Repr

/-- The tokens that were moved, in their order. -/
def Run.output (r : Run) : List Token := r.moves.map Move.token

/-- The result of a run: its output, or its fault. -/
def Run.outcome (r : Run) : Except Mismatch (List Token) :=
  match r.fault with
  | none => .ok r.output
  | some m => .error m

/-! ### The log -/

/-- How much a record matters. -/
inductive Level where
  /-- A single move. -/
  | trace
  /-- The end of a run. -/
  | debug
deriving DecidableEq, Repr

/-- An entry of the log. -/
inductive Record where
  /-- The operator `top` gave way to the operator `incoming`. -/
  | yields (top incoming : Operator)
  /-- The operator `top` was reached by a right parenthesis. -/
  | closes (top : Operator)
  /-- The right parenthesis at this position, counted from one, has no partner. -/
  | unopened (position : Nat)
  /-- A left parenthesis has no partner among the tokens, of which there are `read`. -/
  | unclosed (read : Nat)
  /-- The tokens, of which there are `read`, have a postfix form of `size` tokens. -/
  | converted (read size : Nat)
deriving DecidableEq, Repr

namespace Record

/-- The record of a fault that was met when so many tokens had been read. -/
def ofFault (read : Nat) : Mismatch → Record
  | .unopened => .unopened read
  | .unclosed => .unclosed read

/-- Moves are traced; the end of a run is worth more attention. -/
def level : Record → Level
  | .yields _ _ => .trace
  | .closes _ => .trace
  | .unopened _ => .debug
  | .unclosed _ => .debug
  | .converted _ _ => .debug

/-- The text of a record. -/
def message : Record → String
  | .yields top incoming => "`" ++ top.text ++ "` yields to `" ++ incoming.text ++ "`"
  | .closes top => "`" ++ top.text ++ "` closed by `)`"
  | .unopened position => "`)` without a matching `(` at token " ++ toString position
  | .unclosed read => "unclosed `(` after " ++ toString read ++ " tokens"
  | .converted read size =>
      "converted " ++ toString read ++ " tokens into " ++ toString size ++ " postfix tokens"

end Record

/-- The record of a move: only operators that give way to a token leave one. -/
def Move.record? : Move → Option Record
  | .passed _ => none
  | .yielded top incoming => some (.yields top incoming)
  | .closed top => some (.closes top)
  | .drained _ => none

namespace Run

/-- The records of the moves. -/
def trace (r : Run) : List Record := r.moves.filterMap Move.record?

/-- The closing record. -/
def summary (r : Run) : Record :=
  match r.fault with
  | none => .converted r.read r.output.length
  | some m => .ofFault r.read m

/-- The log of a run. -/
def log (r : Run) : List Record := r.trace ++ [r.summary]

end Run

end Polish
