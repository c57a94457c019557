/-
**A conversion never takes back.**

Tokens may go on coming when a conversion has read all there were.  What it has moved to the output
by then stays there, and so do the records in its log; the rest of its work may turn out otherwise
than it would have at the end of the input.  But what waits on the stack leaves it from the top down
in any case, whether a connective comes before which it has to go, or the right parenthesis of its
group, or the end after all.  So the operators that would have been drained come in the same order,
with what the later tokens bring in between.

Main definitions:

* `Polish.Yard.Continues` — a state **goes on** from another: what it has of the old stack are its
  lower entries, and the upper ones have gone to the output in their order.

Main results:

* `Polish.Yard.Continues.trans`, `Polish.Yard.Shunts.continues` — going on in one step, and in
  several;
* `Polish.Yard.moves_prefix_feed` — a run begins with the moves made before it;
* `Polish.trace_prefix` — the traced records of a beginning of the input come first in the log;
* `Polish.convert_never_takes_back` — **what has been written stays**, and what waits keeps its
  order.
-/

import Polish.Proofs.Log

set_option relaxedAutoImplicit false
set_option autoImplicit false

namespace Polish

open Pending (operators)

namespace Yard

/-! ### Going on from a state -/

/-- The state `z` **goes on** from the state `y`: of the stack of `y`, some lower entries are kept,
and those above them have left it in their order, with all that was moved to the output since. -/
def Continues (y z : Yard) : Prop :=
  ∃ (removed kept pushed : List Pending) (sent : List Move),
    y.stack = removed ++ kept ∧ z.stack = pushed ++ kept ∧
      z.moves.toList = y.moves.toList ++ sent ∧
        ((operators removed).map .operator).Sublist (sent.map Move.token)

theorem operators_append (xs ys : List Pending) :
    operators (xs ++ ys) = operators xs ++ operators ys :=
  List.filterMap_append

namespace Continues

theorem refl (y : Yard) : Continues y y :=
  ⟨[], y.stack, [], [], rfl, rfl, (List.append_nil _).symm, List.Sublist.refl _⟩

theorem trans {y z w : Yard} (h : Continues y z) (h' : Continues z w) : Continues y w := by
  obtain ⟨removed, kept, pushed, sent, hy, hz, hmoves, hsent⟩ := h
  obtain ⟨removed', kept', pushed', sent', hz', hw, hmoves', hsent'⟩ := h'
  have hall : w.moves.toList = y.moves.toList ++ (sent ++ sent') := by
    rw [hmoves', hmoves, List.append_assoc]
  rcases List.append_eq_append_iff.1 (hz.symm.trans hz') with ⟨more, rfl, rfl⟩ | ⟨left, rfl, rfl⟩
  · -- entries of the first stack leave in the second part too
    refine ⟨removed ++ more, kept', pushed', sent ++ sent', ?_, hw, hall, ?_⟩
    · rw [hy, List.append_assoc]
    · rw [operators_append, List.map_append] at hsent' ⊢
      rw [List.map_append]
      exact hsent.append ((List.sublist_append_right _ _).trans hsent')
  · -- the second part does not get down to them
    refine ⟨removed, kept, pushed' ++ left, sent ++ sent', hy, ?_, hall, ?_⟩
    · rw [hw, List.append_assoc]
    · rw [List.map_append]
      exact hsent.trans (List.sublist_append_left _ _)

theorem moves_prefix {y z : Yard} (h : Continues y z) : y.moves.toList <+: z.moves.toList := by
  obtain ⟨_, _, _, sent, -, -, hmoves, -⟩ := h
  exact ⟨sent, hmoves.symm⟩

end Continues

/-- **One step** goes on: a token takes some entries off the top of the stack, and puts at most one
in their place. -/
theorem Shunts.continues {y y' : Yard} {t : Token} (h : Shunts y t y') : Continues y y' := by
  cases h with
  | operand text =>
      exact ⟨[], y.stack, [], [.passed text], rfl, rfl, Array.toList_push, List.nil_sublist _⟩
  | operator o =>
      refine ⟨y.stack.takeWhile (·.yieldsTo o), y.stack.dropWhile (·.yieldsTo o), [.operator o],
        _, List.takeWhile_append_dropWhile.symm, rfl, Array.toList_appendList, ?_⟩
      rw [map_token_map (.yielded · o) (fun _ => rfl)]
  | leftParen =>
      exact ⟨[], y.stack, [.bracket], [], rfl, rfl, (List.append_nil _).symm, List.Sublist.refl _⟩
  | @rightParen outer he =>
      refine ⟨y.innermost ++ [.bracket], outer, [], _, ?_, rfl, Array.toList_appendList, ?_⟩
      · rw [List.append_assoc, List.singleton_append, ← he, innermost_append_enclosing]
      · rw [operators_append, map_token_map .closed (fun _ => rfl)]
        simp [operators, Pending.operator?]

/-- **Several steps** go on. -/
theorem continues_of_shuntAll {y z : Yard} {ts : List Token} (h : y.shuntAll ts = .ok z) :
    Continues y z := by
  induction ts using List.reverseRecOn generalizing z with
  | nil =>
      cases h
      exact Continues.refl y
  | append_singleton ts t ih =>
      obtain ⟨y', hy', hs⟩ := shuntAll_concat_eq_ok_iff.1 h
      exact (ih hy').trans (shunt_eq_ok_iff.1 hs).continues

theorem moves_prefix_finish (y : Yard) : y.moves.toList <+: y.finish.moves := by
  unfold finish
  split
  · exact List.prefix_refl _
  · simp only [Array.toList_appendList]
    exact List.prefix_append _ _

/-- A run begins with **the moves made before it**, however it ends. -/
theorem moves_prefix_feed (y : Yard) (ts : List Token) : y.moves.toList <+: (y.feed ts).moves := by
  induction ts generalizing y with
  | nil => exact y.moves_prefix_finish
  | cons t ts ih =>
      rw [feed]
      cases hs : y.shunt t with
      | ok y' => exact (shunt_eq_ok_iff.1 hs).continues.moves_prefix.trans (ih y')
      | error r =>
          obtain ⟨-, -, rfl⟩ := shunt_eq_error_iff.1 hs
          rw [broken, Array.toList_appendList]
          exact List.prefix_append _ _

/-- What is held in the end begins with **what was in the output before**, and behind that come the
operators that were on the stack, in their order. -/
theorem Continues.exists_held {y z : Yard} (h : Continues y z) :
    ∃ rest, z.held = y.moved ++ rest ∧ ((operators y.stack).map .operator).Sublist rest := by
  obtain ⟨removed, kept, pushed, sent, hy, hz, hmoves, hsent⟩ := h
  refine ⟨sent.map Move.token ++ (operators z.stack).map .operator, ?_, ?_⟩
  · rw [held, moved, hmoves, List.map_append, List.append_assoc]
    rfl
  · rw [hy, hz, operators_append, operators_append, List.map_append, List.map_append]
    exact hsent.append (List.sublist_append_right _ _)

/-- The end of the input leaves no record of the moves that it makes. -/
theorem trace_finish (y : Yard) : y.finish.trace = y.moves.toList.filterMap Move.record? := by
  unfold finish
  split
  · rfl
  · simp only [Run.trace, Array.toList_appendList, List.filterMap_append,
      Run.filterMap_record?_drained, List.append_nil]

end Yard

open Yard (Reached)

/-! ### The log of a beginning -/

/-- The traced records of a beginning of the input **come first in the log** of the whole. -/
theorem trace_prefix (ts us : List Token) : (runOf ts).trace <+: (runOf (ts ++ us)).trace := by
  by_cases h : Opened ts
  · obtain ⟨y, hy⟩ := Yard.exists_reached_iff.2 h
    have hrun : runOf (ts ++ us) = y.feed us :=
      Yard.feed_append_of_ok (Yard.reached_iff_shuntAll.1 hy) us
    rw [runOf_of_reached hy, Yard.trace_finish, hrun]
    exact (y.moves_prefix_feed us).filterMap Move.record?
  · -- the run is over before the end of the beginning
    obtain ⟨n, hn⟩ := exists_isBreach_iff.2 h
    obtain ⟨pre, post, rfl, hpre, -⟩ := isBreach_iff.1 hn
    obtain ⟨y, -, -, hrun⟩ := runOf_of_matched_rightParen hpre
    have hwhole : runOf (pre ++ .rightParen :: post ++ us) = y.broken := by
      rw [List.append_assoc, List.cons_append]
      exact hrun (post ++ us)
    exact ⟨[], by rw [List.append_nil, hrun post, hwhole]⟩

/-! ### The output of a beginning -/

/-- The operators that are read are in the output or on the stack. -/
theorem Yard.Reached.length_operatorsOf {ts : List Token} {y : Yard} (h : Reached ts y) :
    (operatorsOf y.moved).length + (operators y.stack).length = (operatorsOf ts).length := by
  have hperm := (h.held_perm.filterMap Token.operator?).length_eq
  change (operatorsOf y.held).length = (operatorsOf (ts.filter _)).length at hperm
  rwa [operatorsOf_filter_isParen, held, operatorsOf_append, operatorsOf_map_operator,
    List.length_append] at hperm

/-- **A conversion never takes back.**  The traced records of a beginning of the input come first in
the log of the whole, however the two runs end.  If both succeed, some operators of the beginning
have left no record; without them, the postfix form of the beginning comes first in the postfix form
of the whole, and they come later, in their order. -/
theorem convert_never_takes_back (ts us : List Token) :
    (runOf ts).log.filter (·.level = .trace) <+: (runOf (ts ++ us)).log.filter (·.level = .trace) ∧
    ∀ out out', convert ts = .ok out → convert (ts ++ us) = .ok out' →
      ∃ d, d + ((runOf ts).log.filter (·.level = .trace)).length = (operatorsOf ts).length ∧
        d ≤ out.length ∧ ∃ rest, out' = out.take (out.length - d) ++ rest ∧
          (out.drop (out.length - d)).Sublist rest := by
  constructor
  · rw [Run.filter_level_log, Run.filter_level_log]
    exact trace_prefix ts us
  · intro out out' h h'
    obtain ⟨y, hy, hdepth, rfl⟩ := exists_reached_of_convert h
    obtain ⟨z, hz, -, rfl⟩ := exists_reached_of_convert h'
    have hread := Yard.reached_iff_shuntAll.1 hz
    rw [Yard.shuntAll_append_of_ok (Yard.reached_iff_shuntAll.1 hy)] at hread
    obtain ⟨rest, hrest, hsublist⟩ := (Yard.continues_of_shuntAll hread).exists_held
    have hmoves : (runOf ts).moves = y.moves.toList ++ (operators y.stack).map .drained := by
      rw [runOf_of_reached hy, Yard.finish_of_depth hdepth]
    have hcount := hy.length_operatorsOf
    have hlength : y.held.length - (operators y.stack).length = y.moved.length := by
      simp [Yard.held]
    refine ⟨(operators y.stack).length, ?_, by simp [Yard.held], rest, ?_, ?_⟩
    · rw [← Run.length_traced, Run.traced_of_moves hmoves hy.isTimely, Nat.add_comm]
      exact hcount
    · rw [hrest, hlength, Yard.held, List.take_left]
    · rw [hlength, Yard.held, List.drop_left]
      exact hsublist

/-- Two operators wait at the end of the beginning.  The first one gives way to a later connective,
and the second one waits until the end again. -/
theorem convert_never_takes_back_two_waiting :
    let before := [Token.operand "a", .operator (.binary .conj), .operand "b",
      .operator (.binary .disj), .operator .neg, .operand "c"]
    let behind := [Token.operator (.binary .equal), .operand "d", .operator (.binary .conj),
      .operand "e"]
    (runOf before).log.filter (·.level = .trace) = [.yields (.binary .conj) (.binary .disj)] ∧
      ∃ rest, convert (before ++ behind) =
          .ok ([.operand "a", .operand "b", .operator (.binary .conj), .operand "c"] ++ rest) ∧
        [Token.operator .neg, .operator (.binary .disj)].Sublist rest := by
  intro before behind
  have hlog : (runOf before).log.filter (·.level = .trace) =
      [.yields (.binary .conj) (.binary .disj)] := by decide
  obtain ⟨d, hd, -, rest, hout, hrest⟩ := (convert_never_takes_back before behind).2 _ _ rfl rfl
  rw [hlog] at hd
  obtain rfl : d = 2 := Nat.succ.inj hd
  exact ⟨hlog, rest, congrArg Except.ok hout, hrest⟩

end Polish
