/-
**Reading tokens one after another.**

`Polish/Yard.lean` says what one token does to the state of a conversion.  This module says it
again in the two forms in which everything else uses it: as a relation with one case for each kind
of token, and for lists of tokens that are read to their end without a fault.  A run then splits at
any place where it is known to have got that far, and what every step keeps is true of every state
that can be reached.

Main definitions:

* `Polish.Yard.Shunts` — the step relation, **one case for each kind of token**;
* `Polish.Yard.shuntAll` — the state after some tokens, or the run that one of them ends;
* `Polish.Yard.Reached` — the states that are reached from the start, with the tokens read;
* `Polish.Yard.moved`, `Polish.Yard.depth` — the tokens in the output, and the number of left
  parentheses on the stack;
* `Polish.Yard.held` — the operands and operators in the output and on the stack.

Main results:

* `Polish.Yard.shunt_eq_ok_iff` — the relation is the step;
* `Polish.Yard.reached_iff_shuntAll` — to be reached is to be the state after some tokens;
* `Polish.Yard.Reached.held_perm` — what is held are the operands and operators read;
* `Polish.Yard.feed_append_of_ok`, `Polish.Yard.feed_append_of_error` — a run goes on from the
  state after its first tokens, and is over if one of them ends it;
* `Polish.Yard.pull_of_ok`, `Polish.Yard.pull_of_error` — what is left of a source in both cases.
-/

import Polish.Yard
import Polish.Nesting
import Mathlib.Data.List.Induction

set_option relaxedAutoImplicit false
set_option autoImplicit false

namespace Polish

namespace Yard

open Pending (operators)

/-! ### The entries of the stack -/

/-- The number of left parentheses on the stack. -/
def depth (y : Yard) : Nat := y.stack.countP Pending.isBracket

theorem innermost_append_enclosing (y : Yard) : y.innermost ++ y.enclosing = y.stack :=
  List.takeWhile_append_dropWhile

theorem eq_operator_of_mem_innermost {y : Yard} {e : Pending} (h : e ∈ y.innermost) :
    ∃ o, e = .operator o := by
  have hb : (!e.isBracket) = true := List.all_eq_true.1 List.all_takeWhile e h
  cases e with
  | operator o => exact ⟨o, rfl⟩
  | bracket => simp [Pending.isBracket] at hb

theorem eq_bracket_of_enclosing {y : Yard} {e : Pending} {outer : List Pending}
    (h : y.enclosing = e :: outer) : e = .bracket := by
  have hb := List.head?_dropWhile_not (fun e : Pending => !e.isBracket) y.stack
  rw [enclosing] at h
  rw [h] at hb
  cases e with
  | operator o => simp [Pending.isBracket] at hb
  | bracket => rfl

/-- What gives way to an operator is an operator. -/
theorem not_isBracket_of_yieldsTo {e : Pending} {o : Operator} (h : e.yieldsTo o = true) :
    e.isBracket = false := by
  cases e with
  | operator top => rfl
  | bracket => simp [Pending.yieldsTo] at h

theorem countP_isBracket_innermost (y : Yard) : y.innermost.countP Pending.isBracket = 0 := by
  rw [List.countP_eq_zero]
  intro e he
  obtain ⟨o, rfl⟩ := eq_operator_of_mem_innermost he
  simp [Pending.isBracket]

/-- Left parentheses are counted below the innermost operators. -/
theorem depth_eq_countP_enclosing (y : Yard) : y.depth = y.enclosing.countP Pending.isBracket := by
  rw [depth, ← innermost_append_enclosing y, List.countP_append, countP_isBracket_innermost]
  omega

theorem enclosing_eq_nil_iff (y : Yard) : y.enclosing = [] ↔ y.depth = 0 := by
  rw [depth_eq_countP_enclosing]
  constructor
  · intro h
    rw [h]
    rfl
  · intro h
    cases he : y.enclosing with
    | nil => rfl
    | cons e outer =>
        rw [he, eq_bracket_of_enclosing he] at h
        simp [Pending.isBracket] at h

/-- Without a left parenthesis on it, all of the stack is innermost. -/
theorem innermost_eq_stack {y : Yard} (h : y.depth = 0) : y.innermost = y.stack := by
  have hsplit := y.innermost_append_enclosing
  rwa [y.enclosing_eq_nil_iff.2 h, List.append_nil] at hsplit

/-- Giving way takes no left parenthesis off the stack. -/
theorem countP_isBracket_dropWhile (stack : List Pending) (o : Operator) :
    (stack.dropWhile (·.yieldsTo o)).countP Pending.isBracket =
      stack.countP Pending.isBracket := by
  induction stack with
  | nil => rfl
  | cons e stack ih =>
      rw [List.dropWhile_cons]
      split
      · next he => rw [ih, List.countP_cons, not_isBracket_of_yieldsTo he]; simp
      · rfl

/-! ### One token -/

/-- What one token does to a state, if it does not end the run. -/
inductive Shunts (y : Yard) : Token → Yard → Prop
  | operand (text : String) :
      Shunts y (.operand text)
        { y with moves := y.moves.push (.passed text), read := y.read + 1 }
  | operator (o : Operator) :
      Shunts y (.operator o)
        { stack := .operator o :: y.stack.dropWhile (·.yieldsTo o)
          moves := y.moves ++ (operators (y.stack.takeWhile (·.yieldsTo o))).map (Move.yielded · o)
          read := y.read + 1 }
  | leftParen :
      Shunts y .leftParen { y with stack := .bracket :: y.stack, read := y.read + 1 }
  | rightParen {outer : List Pending} : y.enclosing = .bracket :: outer →
      Shunts y .rightParen
        { stack := outer, moves := y.moves ++ (operators y.innermost).map Move.closed,
          read := y.read + 1 }

/-- The run that a right parenthesis ends when it has no partner. -/
def broken (y : Yard) : Run :=
  { moves := (y.moves ++ (operators y.innermost).map Move.closed).toList, read := y.read + 1,
    fault := some .unopened }

theorem shunt_eq_ok_iff {y y' : Yard} {t : Token} : y.shunt t = .ok y' ↔ Shunts y t y' := by
  constructor
  · intro h
    cases t with
    | operand text => cases h; exact Shunts.operand text
    | operator o => cases h; exact Shunts.operator o
    | leftParen => cases h; exact Shunts.leftParen
    | rightParen =>
        simp only [shunt] at h
        split at h
        · cases h
        · next e outer he =>
            cases h
            exact Shunts.rightParen (by rw [he, eq_bracket_of_enclosing he])
  · intro h
    cases h with
    | operand text => rfl
    | operator o => rfl
    | leftParen => rfl
    | rightParen he => simp only [shunt, he]

/-- A run ends early in one case only. -/
theorem shunt_eq_error_iff {y : Yard} {t : Token} {r : Run} :
    y.shunt t = .error r ↔ t = .rightParen ∧ y.depth = 0 ∧ r = y.broken := by
  rw [← enclosing_eq_nil_iff]
  constructor
  · intro h
    cases t with
    | rightParen =>
        simp only [shunt] at h
        split at h
        · next he => cases h; exact ⟨rfl, he, rfl⟩
        · cases h
    | _ => cases h
  · rintro ⟨rfl, he, rfl⟩
    simp only [shunt, he, broken]

/-- What a token does to the number of left parentheses on the stack. -/
theorem Shunts.depth {y y' : Yard} {t : Token} (h : Shunts y t y') :
    (y'.depth : Int) + t.weight = y.depth := by
  cases h with
  | operand text => simp [Yard.depth, Token.weight]
  | operator o =>
      simp [Yard.depth, Token.weight, countP_isBracket_dropWhile, Pending.isBracket]
  | leftParen =>
      simp only [Yard.depth, Token.weight, List.countP_cons, Pending.isBracket, if_true]
      omega
  | rightParen he =>
      rw [depth_eq_countP_enclosing y, he]
      simp [Yard.depth, Token.weight, List.countP_cons, Pending.isBracket]

/-! ### The output so far -/

/-- The tokens that have been moved to the output. -/
def moved (y : Yard) : List Token := y.moves.toList.map Move.token

theorem moved_push (y : Yard) (stack : List Pending) (m : Move) (n : Nat) :
    moved { stack := stack, moves := y.moves.push m, read := n } = y.moved ++ [m.token] := by
  simp [moved]

theorem moved_append (y : Yard) (stack : List Pending) (ms : List Move) (n : Nat) :
    moved { stack := stack, moves := y.moves ++ ms, read := n } =
      y.moved ++ ms.map Move.token := by
  simp [moved]

/-- Whatever makes operators leave the stack, **they come to the output as they are**. -/
theorem map_token_map (move : Operator → Move) (h : ∀ o, (move o).token = .operator o)
    (os : List Operator) : (os.map move).map Move.token = os.map Token.operator := by
  rw [List.map_map]
  exact List.map_congr_left fun o _ => h o

theorem operators_map_operator (os : List Operator) : operators (os.map .operator) = os := by
  rw [operators, List.filterMap_map]
  exact List.filterMap_some

theorem exists_shunt_operand (y : Yard) (text : String) :
    ∃ y', y.shunt (.operand text) = .ok y' ∧ y'.stack = y.stack ∧
      y'.moved = y.moved ++ [.operand text] :=
  ⟨_, rfl, rfl, moved_push y _ _ _⟩

theorem exists_shunt_operator (y : Yard) (o : Operator) :
    ∃ y', y.shunt (.operator o) = .ok y' ∧
      y'.stack = .operator o :: y.stack.dropWhile (·.yieldsTo o) ∧
      y'.moved = y.moved ++ (operators (y.stack.takeWhile (·.yieldsTo o))).map .operator := by
  refine ⟨_, rfl, rfl, ?_⟩
  rw [moved_append, map_token_map (.yielded · o) (fun _ => rfl)]

/-- Nothing gives way to a negation. -/
theorem exists_shunt_neg (y : Yard) :
    ∃ y', y.shunt (.operator .neg) = .ok y' ∧ y'.stack = .operator .neg :: y.stack ∧
      y'.moved = y.moved := by
  obtain ⟨y', hs, hstack, hmoved⟩ := y.exists_shunt_operator .neg
  cases hy : y.stack with
  | nil =>
      rw [hy] at hstack hmoved
      exact ⟨y', hs, hstack, by rw [hmoved]; exact List.append_nil _⟩
  | cons e stack =>
      have he : e.yieldsTo .neg = false := by
        cases e with
        | operator top => exact Operator.yieldsTo_neg top
        | bracket => rfl
      rw [hy, List.dropWhile_cons, he] at hstack
      rw [hy, List.takeWhile_cons, he] at hmoved
      exact ⟨y', hs, hstack, by rw [hmoved]; exact List.append_nil _⟩

theorem exists_shunt_leftParen (y : Yard) :
    ∃ y', y.shunt .leftParen = .ok y' ∧ y'.stack = .bracket :: y.stack ∧ y'.moved = y.moved :=
  ⟨_, rfl, rfl, rfl⟩

theorem exists_shunt_rightParen {y : Yard} {outer : List Pending}
    (h : y.enclosing = .bracket :: outer) :
    ∃ y', y.shunt .rightParen = .ok y' ∧ y'.stack = outer ∧
      y'.moved = y.moved ++ (operators y.innermost).map .operator := by
  refine ⟨_, shunt_eq_ok_iff.2 (Shunts.rightParen h), rfl, ?_⟩
  rw [moved_append, map_token_map .closed (fun _ => rfl)]

/-- Without a left parenthesis on the stack, the end of the input sends all of it to the output. -/
theorem finish_of_depth {y : Yard} (h : y.depth = 0) :
    y.finish = { moves := y.moves.toList ++ (operators y.stack).map Move.drained, read := y.read,
                 fault := none } := by
  have hany : ¬ y.stack.any Pending.isBracket = true := by
    rw [List.any_eq_true]
    rintro ⟨e, he, hb⟩
    exact absurd hb (List.countP_eq_zero.1 h e he)
  rw [finish, if_neg hany]
  simp only [Array.toList_appendList]

theorem outcome_finish {y : Yard} (h : y.depth = 0) :
    y.finish.outcome = .ok (y.moved ++ (operators y.stack).map .operator) := by
  rw [finish_of_depth h, Run.outcome, Run.output]
  simp only [List.map_append, map_token_map .drained (fun _ => rfl)]
  rfl

/-- A run that is ended by a right parenthesis moves what would be moved at the end of the input. -/
theorem map_token_broken {y : Yard} (h : y.depth = 0) :
    y.broken.moves.map Move.token = y.moved ++ (operators y.stack).map .operator := by
  simp only [broken, Array.toList_appendList, List.map_append, map_token_map .closed (fun _ => rfl),
    innermost_eq_stack h]
  rfl

/-- The operands and operators in the output and on the stack. -/
def held (y : Yard) : List Token := y.moved ++ (operators y.stack).map .operator

/-- An operand or operator that is read **is held** from then on, together with all others. -/
theorem Shunts.held_perm {y y' : Yard} {t : Token} (h : Shunts y t y') :
    y'.held.Perm (y.held ++ [t].filter (!·.isParen)) := by
  cases h with
  | operand text =>
      rw [held, moved_push, held, List.append_assoc, List.append_assoc]
      exact List.perm_append_comm.append_left _
  | operator o =>
      have hsplit : operators y.stack = operators (y.stack.takeWhile (·.yieldsTo o)) ++
          operators (y.stack.dropWhile (·.yieldsTo o)) := by
        rw [operators, operators, operators, ← List.filterMap_append,
          List.takeWhile_append_dropWhile]
      rw [held, moved_append, map_token_map (.yielded · o) (fun _ => rfl), held, hsplit,
        List.map_append, ← List.append_assoc, List.append_assoc (y.moved ++ _)]
      exact (@List.perm_append_comm _ [Token.operator o] _).append_left _
  | leftParen =>
      change y.held.Perm (y.held ++ [])
      rw [List.append_nil]
  | @rightParen outer he =>
      have hsplit : operators y.stack = operators y.innermost ++ operators outer := by
        rw [← innermost_append_enclosing, he, operators, List.filterMap_append]
        rfl
      change List.Perm _ (y.held ++ [])
      rw [held, moved_append, map_token_map .closed (fun _ => rfl), List.append_nil, held, hsplit,
        List.map_append, ← List.append_assoc]

/-! ### Several tokens -/

/-- The state after some tokens, or the run that one of them ends. -/
def shuntAll (y : Yard) (ts : List Token) : Except Run Yard := ts.foldlM shunt y

@[simp] theorem shuntAll_nil (y : Yard) : y.shuntAll [] = .ok y := rfl

theorem shuntAll_cons (y : Yard) (t : Token) (ts : List Token) :
    y.shuntAll (t :: ts) = (y.shunt t).bind (·.shuntAll ts) := rfl

theorem shuntAll_singleton {y y' : Yard} {t : Token} (h : y.shunt t = .ok y') :
    y.shuntAll [t] = .ok y' := by
  rw [shuntAll_cons, h]
  rfl

theorem shuntAll_append (y : Yard) (ts us : List Token) :
    y.shuntAll (ts ++ us) = (y.shuntAll ts).bind (·.shuntAll us) := by
  rw [shuntAll, List.foldlM_append]
  rfl

theorem shuntAll_append_of_ok {y y' : Yard} {ts : List Token} (h : y.shuntAll ts = .ok y')
    (us : List Token) : y.shuntAll (ts ++ us) = y'.shuntAll us := by
  rw [shuntAll_append, h]
  rfl

/-- A token that is read after others acts on the state after them. -/
theorem shuntAll_concat_eq_ok_iff {y y'' : Yard} {ts : List Token} {t : Token} :
    y.shuntAll (ts ++ [t]) = .ok y'' ↔
      ∃ y', y.shuntAll ts = .ok y' ∧ y'.shunt t = .ok y'' := by
  rw [shuntAll_append]
  cases y.shuntAll ts with
  | error r => simp [Except.bind]
  | ok y' =>
      simp only [Except.bind, shuntAll_cons, Except.ok.injEq, exists_eq_left']
      cases y'.shunt t with
      | error r => rfl
      | ok z => rfl

/-- The tokens that are read are counted. -/
theorem read_of_shuntAll {y y' : Yard} {ts : List Token} (h : y.shuntAll ts = .ok y') :
    y'.read = y.read + ts.length := by
  induction ts generalizing y with
  | nil => cases h; rfl
  | cons t ts ih =>
      rw [shuntAll_cons] at h
      cases hz : y.shunt t with
      | error r => rw [hz] at h; cases h
      | ok z =>
          rw [hz] at h
          have hread : z.read = y.read + 1 := by
            cases shunt_eq_ok_iff.1 hz <;> rfl
          rw [ih h, hread, List.length_cons]
          omega

/-- The states that are reached from the start, with the tokens read on the way. -/
inductive Reached : List Token → Yard → Prop
  | start : Reached [] {}
  | step {ts : List Token} {y y' : Yard} {t : Token} : Reached ts y → Shunts y t y' →
      Reached (ts ++ [t]) y'

/-- To be reached is to be the state after some tokens. -/
theorem reached_iff_shuntAll {ts : List Token} {y : Yard} :
    Reached ts y ↔ ({} : Yard).shuntAll ts = .ok y := by
  constructor
  · intro h
    induction h with
    | start => rfl
    | step _ hs ih => exact shuntAll_concat_eq_ok_iff.2 ⟨_, ih, shunt_eq_ok_iff.2 hs⟩
  · intro h
    induction ts using List.reverseRecOn generalizing y with
    | nil => cases h; exact Reached.start
    | append_singleton ts t ih =>
        obtain ⟨y', hy', hs⟩ := shuntAll_concat_eq_ok_iff.1 h
        exact (ih hy').step (shunt_eq_ok_iff.1 hs)

theorem Reached.read {ts : List Token} {y : Yard} (h : Reached ts y) : y.read = ts.length := by
  rw [read_of_shuntAll (reached_iff_shuntAll.1 h)]
  exact Nat.zero_add _

/-- What is held are **the operands and operators read**, each as often. -/
theorem Reached.held_perm {ts : List Token} {y : Yard} (h : Reached ts y) :
    y.held.Perm (ts.filter (!·.isParen)) := by
  induction h with
  | start => exact List.Perm.refl _
  | step _ hs ih =>
      rw [List.filter_append]
      exact hs.held_perm.trans (ih.append_right _)

/-! ### Runs -/

/-- A run goes on from the state after its first tokens. -/
theorem feed_append_of_ok {y y' : Yard} {ts : List Token} (h : y.shuntAll ts = .ok y')
    (us : List Token) : y.feed (ts ++ us) = y'.feed us := by
  induction ts generalizing y with
  | nil => cases h; rfl
  | cons t ts ih =>
      rw [shuntAll_cons] at h
      rw [List.cons_append, feed]
      cases hz : y.shunt t with
      | error r => rw [hz] at h; cases h
      | ok z => rw [hz] at h; exact ih h

theorem feed_of_ok {y y' : Yard} {ts : List Token} (h : y.shuntAll ts = .ok y') :
    y.feed ts = y'.finish := by
  have h' := feed_append_of_ok h []
  rwa [List.append_nil] at h'

/-- A run is over with the token that ends it. -/
theorem feed_append_of_error {y y' : Yard} {ts : List Token} {t : Token} {r : Run}
    (h : y.shuntAll ts = .ok y') (ht : y'.shunt t = .error r) (us : List Token) :
    y.feed (ts ++ t :: us) = r := by
  rw [feed_append_of_ok h, feed, ht]

/-- Reading at most `n` tokens from a source reads that many, if none of them ends the run. -/
theorem pull_of_ok {σ : Type} [Source σ] {y y' : Yard} {n : Nat} {s : σ}
    (h : y.shuntAll (Source.take n s).1 = .ok y') :
    y.pull n s = (y'.finish, (Source.take n s).2) := by
  induction n generalizing y s with
  | zero => cases h; rfl
  | succ n ih =>
      rw [pull]
      rw [Source.take_succ] at h ⊢
      rcases hs : Source.next s with ⟨_ | t, s'⟩
      · rw [hs] at h
        cases h
        rfl
      · rw [hs] at h
        simp only [shuntAll_cons] at h ⊢
        cases hz : y.shunt t with
        | error r => rw [hz] at h; cases h
        | ok z => rw [hz] at h; exact ih h

/-- If a token ends the run, the source is left just behind it. -/
theorem pull_of_error {σ : Type} [Source σ] {y y' : Yard} {n : Nat} {s : σ}
    {ts us : List Token} {t : Token} {r : Run} (hn : (Source.take n s).1 = ts ++ t :: us)
    (h : y.shuntAll ts = .ok y') (ht : y'.shunt t = .error r) :
    y.pull n s = (r, Source.skip (ts.length + 1) s) := by
  induction ts generalizing y n s with
  | nil =>
      cases h
      cases n with
      | zero => simp at hn
      | succ n =>
          rw [Source.take_succ] at hn
          rcases hs : Source.next s with ⟨_ | u, s'⟩
          · simp [hs] at hn
          · simp only [hs, List.nil_append, List.cons.injEq] at hn
            rw [pull, hs, hn.1]
            simp only [ht]
            simp [Source.skip, hs]
  | cons u ts ih =>
      cases n with
      | zero => simp at hn
      | succ n =>
          rw [Source.take_succ] at hn
          rcases hs : Source.next s with ⟨_ | v, s'⟩
          · simp [hs] at hn
          · simp only [hs, List.cons_append, List.cons.injEq] at hn
            obtain ⟨rfl, hn⟩ := hn
            rw [shuntAll_cons] at h
            cases hz : y.shunt v with
            | error q => rw [hz] at h; cases h
            | ok z =>
                rw [hz] at h
                rw [pull, hs]
                simp only [hz]
                rw [ih hn h, List.length_cons]
                simp [Source.skip, hs]

end Yard

end Polish
