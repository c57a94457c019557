/-
**Reading from several sources by turns.**

Whoever holds some sources can put questions to them in any order: for the next token, for the one
that comes after so many others, for the next few or all that are left, for their number, or for
the postfix form of what is to come.  Every question takes what it reads from its own source, and
the next question to that source goes on from there; the other sources are left as they are.

Main definitions:

* `Polish.Query`, `Polish.Reply` — a question to a source, and what it is answered with;
* `Polish.Query.ask` — **asking**: the answer, and what is left of the source;
* `Polish.Turn`, `Polish.Turn.play` — a question to one of several sources;
* `Polish.replies` — the answers to a series of questions.
-/

import Polish.Yard

set_option relaxedAutoImplicit false
set_option autoImplicit false

namespace Polish

/-- A question to a source. -/
inductive Query where
  /-- What comes next? -/
  | next
  /-- What comes after the next `n` tokens? -/
  | nth (n : Nat)
  /-- What are the next `n` tokens? -/
  | take (n : Nat)
  /-- What are the tokens to come? -/
  | rest
  /-- How many tokens are to come? -/
  | count
  /-- What is the postfix form of the tokens to come? -/
  | convert
  /-- What is the postfix form of the next `n` tokens? -/
  | convertTake (n : Nat)
deriving DecidableEq, Repr

/-- The answer to a question. -/
inductive Reply where
  /-- A token, or the end of the source. -/
  | token (t : Option Token)
  /-- Some tokens. -/
  | tokens (ts : List Token)
  /-- A number of tokens. -/
  | count (n : Nat)
  /-- The result of a conversion. -/
  | outcome (result : Except Mismatch (List Token))

namespace Query

variable {σ : Type} [Source σ]

/-- Asking **one source**: the answer, and what is left of the source.  A conversion that meets a
right parenthesis without partner leaves all that comes after it. -/
def ask (s : σ) : Query → Reply × σ
  | .next =>
      let (t, s') := Source.next s
      (.token t, s')
  | .nth n =>
      let (t, s') := Source.nth n s
      (.token t, s')
  | .take n =>
      let (ts, s') := Source.take n s
      (.tokens ts, s')
  | .rest =>
      let (ts, s') := Source.rest s
      (.tokens ts, s')
  | .count =>
      let (ts, s') := Source.rest s
      (.count ts.length, s')
  | .convert =>
      -- one more than the source can give, so that it is the source which ends
      let (r, s') := ({} : Yard).pull (Source.size s + 1) s
      (.outcome r.outcome, s')
  | .convertTake n =>
      let (r, s') := ({} : Yard).pull n s
      (.outcome r.outcome, s')

end Query

/-! ### Several sources -/

/-- A question to one of several sources. -/
structure Turn where
  /-- The place of the source, counted from zero. -/
  place : Nat
  /-- The question. -/
  query : Query
deriving DecidableEq, Repr

/-- The answer of the source in question, and all sources after that.  There is none if the place
is empty. -/
def Turn.play {σ : Type} [Source σ] (sources : List σ) (turn : Turn) : Option (Reply × List σ) :=
  match sources[turn.place]? with
  | none => none
  | some s =>
    let (reply, s') := turn.query.ask s
    some (reply, sources.set turn.place s')

/-- The answers to a series of questions, one after another. -/
def replies {σ : Type} [Source σ] (sources : List σ) : List Turn → Option (List Reply)
  | [] => some []
  | turn :: turns =>
    match turn.play sources with
    | none => none
    | some (reply, sources') => (replies sources' turns).map (reply :: ·)

end Polish
