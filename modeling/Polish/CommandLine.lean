/-
**The command line.**

The program takes one expression and prints its postfix form.  Without arguments it explains
itself; of several arguments it reads the first alone, and no argument is an option.

Main definitions:

* `Polish.Answer` — what a run of the program shows: two texts and an exit status;
* `Polish.usage`, `Polish.failure` — the explanation, and the report of a failure;
* `Polish.answer` — **the program**.
-/

import Polish.Postfix

set_option relaxedAutoImplicit false
set_option autoImplicit false

namespace Polish

/-- What a run of the program shows. -/
structure Answer where
  /-- The exit status. -/
  status : Nat
  /-- What is written to the standard output. -/
  stdout : String
  /-- What is written to the standard error. -/
  stderr : String
deriving DecidableEq, Repr

/-- How to call the program. -/
def usage (program : String) : String :=
  "usage " ++ program ++ " \"infix boolean expression\"\n" ++
    "e.g. \"( T & F | ( T & ! T ) )\"\n"

/-- The report of a failure: what was attempted, and why it failed. -/
def failure (expression : String) (m : Mismatch) : String :=
  "Error: could not convert `" ++ expression ++ "`\n\nCaused by:\n    " ++ m.message ++ "\n"

/-- The **program**, called by the name `program`. -/
def answer (program : String) : List String → Answer
  | [] => { status := 0, stdout := usage program, stderr := "" }
  | expression :: _ =>
    match Postfix.parse expression with
    | .ok form => { status := 0, stdout := form.text ++ "\n", stderr := "" }
    | .error m => { status := 1, stdout := "", stderr := failure expression m }

end Polish
