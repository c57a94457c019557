/-
**The log tells what the conversion does.**

The records of a run are written one by one while operators leave the stack for the output, and the
operators that are left at the end leave it without a record.  So there are two stories of one run:
the one that its output tells, and the one that can be read off its log.  They agree.  Every traced
record names one operator that went to the output, in the order in which they went there, and what
the output has beyond that are the operators drained at the end, which are its last tokens.  A run
that fails at a right parenthesis has traced all the operators of the tokens before.  Behind the
traced records there is one more, and its numbers are those of the input and the output.

Main definitions:

* `Polish.operatorsOf` — the operators among some tokens;
* `Polish.Move.isTimely` — whether a move can be made **while tokens are read**;
* `Polish.Run.traced`, `Polish.Run.silent` — the operators **named by the traced records** of a run,
  and those drained at its end.

Main results:

* `Polish.Yard.Reached.isTimely` — all moves are timely until the end of the input is met;
* `Polish.Run.traced_of_moves`, `Polish.Run.silent_of_moves` — what the log of a run with such moves
  names, and what it leaves out;
* `Polish.log_names_what_leaves` — **the traced records name what leaves the stack**, and the
  operators that they do not name come last;
* `Polish.log_ends_with_counts` — **the last record** alone tells how the run ended, and the numbers
  in its text are right.
-/

import Polish.Proofs.Balance
import Polish.Proofs.StackOrder
import Polish.Proofs.Wording

set_option relaxedAutoImplicit false
set_option autoImplicit false

namespace Polish

open Pending (operators)
open Yard (Shunts Reached)

/-! ### Operators among tokens -/

/-- The operator that a token is, if it is one. -/
def Token.operator? : Token → Option Operator
  | .operator o => some o
  | _ => none

/-- The operators among some tokens, in their order. -/
def operatorsOf (ts : List Token) : List Operator := ts.filterMap Token.operator?

theorem operatorsOf_append (ts us : List Token) :
    operatorsOf (ts ++ us) = operatorsOf ts ++ operatorsOf us :=
  List.filterMap_append

theorem operatorsOf_map_operator (os : List Operator) : operatorsOf (os.map .operator) = os := by
  rw [operatorsOf, List.filterMap_map]
  exact List.filterMap_some

/-- Parentheses are no operators. -/
theorem operatorsOf_filter_isParen (ts : List Token) :
    operatorsOf (ts.filter (!·.isParen)) = operatorsOf ts := by
  rw [operatorsOf, List.filterMap_filter]
  exact List.filterMap_congr fun t _ => by cases t <;> rfl

/-! ### Moves that are made while tokens are read -/

namespace Move

/-- Whether a move can be made while tokens are read: an operator gives way only by the precedence
rule, and none is drained. -/
def isTimely : Move → Bool
  | .passed _ => true
  | .yielded top incoming => top.yieldsTo incoming
  | .closed _ => true
  | .drained _ => false

/-- The operator that a move takes off the stack at the end of the input. -/
def drained? : Move → Option Operator
  | .drained top => some top
  | _ => none

/-- A timely move leaves a record if it moves an operator, and the record names that one. -/
theorem popped?_of_isTimely {m : Move} (h : m.isTimely = true) :
    m.record?.bind Record.popped? = m.token.operator? := by
  cases m with
  | drained top => cases h
  | _ => rfl

theorem drained?_of_isTimely {m : Move} (h : m.isTimely = true) : m.drained? = none := by
  cases m with
  | drained top => cases h
  | _ => rfl

end Move

namespace Yard

theorem isTimely_of_mem_yielded {stack : List Pending} {o : Operator} {m : Move}
    (h : m ∈ (operators (stack.takeWhile (·.yieldsTo o))).map (Move.yielded · o)) :
    m.isTimely = true := by
  obtain ⟨top, htop, rfl⟩ := List.mem_map.1 h
  obtain ⟨e, he, hop⟩ := List.mem_filterMap.1 htop
  have hyield : e.yieldsTo o = true := List.all_eq_true.1 List.all_takeWhile e he
  cases e with
  | bracket => cases hop
  | operator o' =>
      cases hop
      exact hyield

/-- **One step** makes timely moves. -/
theorem Shunts.isTimely {y y' : Yard} {t : Token} (h : Shunts y t y')
    (hy : ∀ m ∈ y.moves.toList, m.isTimely = true) : ∀ m ∈ y'.moves.toList, m.isTimely = true := by
  intro m hm
  cases h with
  | operand text =>
      simp only [Array.toList_push, List.mem_append, List.mem_singleton] at hm
      rcases hm with hm | rfl
      · exact hy m hm
      · rfl
  | operator o =>
      simp only [Array.toList_appendList, List.mem_append] at hm
      rcases hm with hm | hm
      · exact hy m hm
      · exact isTimely_of_mem_yielded hm
  | leftParen => exact hy m hm
  | rightParen he =>
      simp only [Array.toList_appendList, List.mem_append] at hm
      rcases hm with hm | hm
      · exact hy m hm
      · obtain ⟨top, -, rfl⟩ := List.mem_map.1 hm
        rfl

/-- All moves are **timely until the end** of the input is met. -/
theorem Reached.isTimely {ts : List Token} {y : Yard} (h : Reached ts y) :
    ∀ m ∈ y.moves.toList, m.isTimely = true := by
  induction h with
  | start => simp
  | step _ hs ih => exact hs.isTimely ih

/-- So they are if the run ends at a right parenthesis. -/
theorem Reached.isTimely_broken {ts : List Token} {y : Yard} (h : Reached ts y) :
    ∀ m ∈ y.broken.moves, m.isTimely = true := by
  intro m hm
  simp only [broken, Array.toList_appendList, List.mem_append] at hm
  rcases hm with hm | hm
  · exact h.isTimely m hm
  · obtain ⟨top, -, rfl⟩ := List.mem_map.1 hm
    rfl

end Yard

/-- Every run makes timely moves, and then drains some operators or none. -/
theorem exists_moves_eq (ts : List Token) :
    ∃ (ms : List Move) (os : List Operator),
      (runOf ts).moves = ms ++ os.map .drained ∧ ∀ m ∈ ms, m.isTimely = true := by
  by_cases h : Opened ts
  · obtain ⟨y, hy⟩ := Yard.exists_reached_iff.2 h
    rw [runOf_of_reached hy]
    by_cases hdepth : y.depth = 0
    · exact ⟨y.moves.toList, operators y.stack, by rw [Yard.finish_of_depth hdepth], hy.isTimely⟩
    · refine ⟨y.moves.toList, [], ?_, hy.isTimely⟩
      have hfault := y.fault_finish
      rw [if_neg hdepth] at hfault
      unfold Yard.finish at hfault ⊢
      split
      · exact (List.append_nil _).symm
      · next hany => simp [hany] at hfault
  · obtain ⟨n, hn⟩ := exists_isBreach_iff.2 h
    obtain ⟨pre, post, rfl, hpre, -⟩ := isBreach_iff.1 hn
    obtain ⟨y, hy, -, hrun⟩ := runOf_of_matched_rightParen hpre
    rw [hrun post]
    exact ⟨y.broken.moves, [], (List.append_nil _).symm, hy.isTimely_broken⟩

/-! ### The traced records -/

namespace Run

/-- The operators that the traced records of the log name, in their order. -/
def traced (r : Run) : List Operator :=
  (r.log.filter (·.level = .trace)).filterMap Record.popped?

/-- The operators that leave the stack without a record, in their order. -/
def silent (r : Run) : List Operator := r.moves.filterMap Move.drained?

theorem level_of_mem_trace {r : Run} {record : Record} (h : record ∈ r.trace) :
    record.level = .trace := by
  obtain ⟨m, -, hm⟩ := List.mem_filterMap.1 h
  cases m <;> cases hm <;> rfl

theorem level_summary (r : Run) : r.summary.level = .debug := by
  unfold summary
  split
  · rfl
  · next m _ => cases m <;> rfl

theorem filter_level_log (r : Run) : r.log.filter (·.level = .trace) = r.trace := by
  have htrace : r.trace.filter (·.level = .trace) = r.trace :=
    List.filter_eq_self.2 fun record h => by simp [level_of_mem_trace h]
  rw [log, List.filter_append, htrace, List.filter_singleton, level_summary]
  exact List.append_nil _

/-- Operators that are drained leave no record. -/
theorem filterMap_record?_drained (os : List Operator) :
    (os.map Move.drained).filterMap Move.record? = [] := by
  rw [List.filterMap_map]
  exact List.filterMap_eq_nil_iff.2 fun _ _ => rfl

/-- Every traced record names an operator. -/
theorem length_traced (r : Run) :
    r.traced.length = (r.log.filter (·.level = .trace)).length := by
  rw [traced, List.length_filterMap_eq_countP, List.countP_eq_length]
  intro record h
  have hlevel := of_decide_eq_true (List.mem_filter.1 h).2
  cases record with
  | yields top incoming => rfl
  | closes top => rfl
  | _ => cases hlevel

/-- The traced records name the operators that are moved **while tokens are read**. -/
theorem traced_of_moves {r : Run} {ms : List Move} {os : List Operator}
    (h : r.moves = ms ++ os.map .drained) (hms : ∀ m ∈ ms, m.isTimely = true) :
    r.traced = operatorsOf (ms.map Move.token) := by
  rw [traced, filter_level_log, trace, h, List.filterMap_append, filterMap_record?_drained,
    List.append_nil, List.filterMap_filterMap, operatorsOf, List.filterMap_map]
  exact List.filterMap_congr fun m hm => Move.popped?_of_isTimely (hms m hm)

/-- The operators without a record are those that are drained. -/
theorem silent_of_moves {r : Run} {ms : List Move} {os : List Operator}
    (h : r.moves = ms ++ os.map .drained) (hms : ∀ m ∈ ms, m.isTimely = true) :
    r.silent = os := by
  have htimely : ms.filterMap Move.drained? = [] :=
    List.filterMap_eq_nil_iff.2 fun m hm => Move.drained?_of_isTimely (hms m hm)
  rw [silent, h, List.filterMap_append, htimely, List.filterMap_map]
  exact List.filterMap_some

end Run

/-- Every traced record is that of a timely move. -/
theorem exists_move_of_record {ts : List Token} {record : Record} (h : record ∈ (runOf ts).log)
    (hlevel : record.level = .trace) : ∃ m : Move, m.isTimely = true ∧ m.record? = some record := by
  have htrace : record ∈ (runOf ts).trace := by
    rw [← Run.filter_level_log]
    exact List.mem_filter.2 ⟨h, decide_eq_true hlevel⟩
  obtain ⟨ms, os, hmoves, hms⟩ := exists_moves_eq ts
  obtain ⟨m, hm, hrecord⟩ := List.mem_filterMap.1 htrace
  rw [hmoves] at hm
  rcases List.mem_append.1 hm with hm | hm
  · exact ⟨m, hms m hm, hrecord⟩
  · obtain ⟨top, -, rfl⟩ := List.mem_map.1 hm
    cases hrecord

/-- **The traced records name what leaves the stack.**  A record names an operator and never a
parenthesis, and what an operator gives way to is a connective that does not bind tighter.  If the
conversion succeeds, the operators of its output are those that are traced and then those that are
silent, and these are its last tokens: negations, and then connectives that get looser.  If a right
parenthesis without partner ends it, the operators that are traced are those of the postfix form of
the tokens before. -/
theorem log_names_what_leaves (ts : List Token) :
    (∀ record ∈ (runOf ts).log, record.level = .trace →
      (∃ top, record.popped? = some top ∧ record.Names (.operator top)) ∧
      (∀ t : Token, t.isParen = true → ¬ record.Names t) ∧
      ∀ top incoming, record = .yields top incoming →
        ∃ c : Connective, incoming = .binary c ∧ c.precedence ≤ top.precedence) ∧
    (∀ out, convert ts = .ok out →
      (runOf ts).traced ++ (runOf ts).silent = operatorsOf out ∧
      (runOf ts).silent.map .operator <:+ out ∧
      ∃ (n : Nat) (cs : List Connective),
        (runOf ts).silent = List.replicate n .neg ++ cs.map .binary ∧
        cs.Pairwise fun c d => d.precedence < c.precedence) ∧
    (convert ts = .error .unopened →
      ∃ (pre post out : List Token), ts = pre ++ .rightParen :: post ∧
        IsBreach ts (pre.length + 1) ∧ convert pre = .ok out ∧
        (runOf ts).traced = operatorsOf out) := by
  refine ⟨fun record hrecord hlevel => ?_, fun out h => ?_, fun h => ?_⟩
  · obtain ⟨m, htimely, hm⟩ := exists_move_of_record hrecord hlevel
    have hpopped : ∃ top, record.popped? = some top := by
      cases m <;> cases hm <;> exact ⟨_, rfl⟩
    obtain ⟨top, htop⟩ := hpopped
    refine ⟨⟨top, htop, Record.names_of_popped? htop⟩, fun t => Record.not_names_paren htop, ?_⟩
    rintro o incoming rfl
    cases m <;> cases hm
    exact Operator.yieldsTo_iff.1 htimely
  · obtain ⟨y, hy, hdepth, rfl⟩ := exists_reached_of_convert h
    have hmoves : (runOf ts).moves = y.moves.toList ++ (operators y.stack).map .drained := by
      rw [runOf_of_reached hy, Yard.finish_of_depth hdepth]
    rw [Run.traced_of_moves hmoves hy.isTimely, Run.silent_of_moves hmoves hy.isTimely]
    refine ⟨?_, List.suffix_append _ _, ?_⟩
    · rw [Yard.held, operatorsOf_append, operatorsOf_map_operator]
      rfl
    · refine Settled.exists_negs ?_
      rw [Yard.map_operators hdepth]
      exact hy.settled
  · obtain ⟨n, hn⟩ := exists_isBreach_iff.2 (convert_eq_unopened_iff.1 h)
    obtain ⟨pre, post, rfl, hpre, rfl⟩ := isBreach_iff.1 hn
    obtain ⟨y, hy, hdepth⟩ := hpre.exists_reached
    have hmoves : (runOf (pre ++ .rightParen :: post)).moves =
        y.broken.moves ++ ([] : List Operator).map .drained := by
      rw [(runOf_rightParen_of_reached hy hdepth).2, List.map_nil, List.append_nil]
    refine ⟨pre, post, _, rfl, hn, convert_of_reached hy hdepth, ?_⟩
    rw [Run.traced_of_moves hmoves hy.isTimely_broken, y.map_token_broken hdepth]

/-- A conjunction that gives way while tokens are read, two operators that wait until the end, and a
comparison that a right parenthesis without partner reaches. -/
theorem log_names_what_leaves_both_ways :
    let read := [Token.operand "a", .operator (.binary .conj), .operand "b",
      .operator (.binary .disj), .operator .neg, .operand "c"]
    let broken := [Token.operand "a", .operator (.binary .less), .operand "b", .rightParen,
      .operator .neg]
    ¬ (Record.yields (.binary .conj) (.binary .disj)).Names .leftParen ∧
      (runOf read).traced ++ (runOf read).silent = [.binary .conj, .neg, .binary .disj] ∧
      ∃ (pre post out : List Token), broken = pre ++ .rightParen :: post ∧
        IsBreach broken (pre.length + 1) ∧ convert pre = .ok out ∧
        (runOf broken).traced = operatorsOf out := by
  intro read broken
  obtain ⟨hrecord, hread, -⟩ := log_names_what_leaves read
  obtain ⟨-, -, hbroken⟩ := log_names_what_leaves broken
  have hlog : Record.yields (.binary .conj) (.binary .disj) ∈ (runOf read).log := by decide
  exact ⟨(hrecord _ hlog rfl).2.1 _ rfl, (hread _ rfl).1, hbroken rfl⟩

/-! ### The last record -/

namespace Run

theorem summary_of_outcome {r : Run} {out : List Token} (h : r.outcome = .ok out) :
    r.summary = .converted r.read out.length := by
  cases hfault : r.fault with
  | none =>
      rw [outcome, hfault] at h
      cases h
      rw [summary, hfault]
  | some m =>
      rw [outcome, hfault] at h
      cases h

theorem summary_of_error {r : Run} {m : Mismatch} (h : r.outcome = .error m) :
    r.summary = .ofFault r.read m := by
  rw [summary, outcome_eq_error_iff.1 h]

end Run

/-- Unless a right parenthesis lacks a partner, all tokens are counted. -/
theorem read_of_convert_ne {ts : List Token} (h : convert ts ≠ .error .unopened) :
    (runOf ts).read = ts.length := by
  refine read_of_opened ?_
  by_contra hno
  exact h (convert_eq_unopened_iff.2 hno)

/-- **The last record** of a log is the only one that is not traced.  It tells the position of the
first right parenthesis that has no partner, and then nothing behind that changes the log; or the
number of the tokens of which one is a left parenthesis without partner; or the number of the tokens
and the length of their postfix form, which lacks the parentheses alone.  Its text has these numbers
and no others, and is the text of no other record. -/
theorem log_ends_with_counts (ts : List Token) :
    ∃ (records : List Record) (last : Record), (runOf ts).log = records ++ [last] ∧
      (∀ record ∈ records, record.level = .trace) ∧ last.level = .debug ∧
      (∀ record : Record, record.message = last.message → record = last) ∧
      (convert ts = .error .unopened →
        ∃ n, IsBreach ts n ∧ ts[n - 1]? = some .rightParen ∧ last = .unopened n ∧
          numbersIn last.message = [n] ∧
          ∀ us, (runOf (ts.take n ++ us)).log = (runOf ts).log) ∧
      (convert ts = .error .unclosed →
        last = .unclosed ts.length ∧ numbersIn last.message = [ts.length]) ∧
      ∀ out, convert ts = .ok out →
        last = .converted ts.length out.length ∧
        numbersIn last.message = [ts.length, out.length] ∧
        out.length + ts.countP (·.isParen) = ts.length := by
  refine ⟨(runOf ts).trace, (runOf ts).summary, rfl, fun _ => Run.level_of_mem_trace,
    Run.level_summary _, fun _ => Record.message_inj.1, fun h => ?_, fun h => ?_, fun out h => ?_⟩
  · obtain ⟨n, hn⟩ := exists_isBreach_iff.2 (convert_eq_unopened_iff.1 h)
    have hlast : (runOf ts).summary = .unopened n := by
      rw [Run.summary_of_error h, read_of_isBreach hn]
      rfl
    refine ⟨n, hn, ?_, hlast, ?_, fun us => by rw [runOf_take_append_of_isBreach hn]⟩
    · obtain ⟨pre, post, rfl, -, rfl⟩ := isBreach_iff.1 hn
      simp
    · rw [hlast, Record.numbersIn_message]
      rfl
  · have hlast : (runOf ts).summary = .unclosed ts.length := by
      rw [Run.summary_of_error h, read_of_convert_ne (by simp [h])]
      rfl
    refine ⟨hlast, ?_⟩
    rw [hlast, Record.numbersIn_message]
    rfl
  · have hlast : (runOf ts).summary = .converted ts.length out.length := by
      rw [Run.summary_of_outcome h, read_of_convert_ne (by simp [h])]
    refine ⟨hlast, ?_, length_of_convert h⟩
    rw [hlast, Record.numbersIn_message]
    rfl

/-- The three ways in which a run can end: at a right parenthesis in the middle, with a left one that
is still open, and with a postfix form. -/
theorem log_ends_with_counts_three_ends :
    let broken := [Token.operand "a", .rightParen, .leftParen, .operand "b"]
    let pending := [Token.leftParen, .operand "a"]
    let whole := [Token.leftParen, .operand "a", .rightParen]
    (∃ n, IsBreach broken n ∧ (runOf broken).log.getLast? = some (.unopened n)) ∧
      (runOf pending).log.getLast? = some (.unclosed 2) ∧
      (runOf whole).log.getLast? = some (.converted 3 1) := by
  intro broken pending whole
  obtain ⟨records₁, _, h₁, -, -, -, hbroken, -⟩ := log_ends_with_counts broken
  obtain ⟨records₂, _, h₂, -, -, -, -, hpending, -⟩ := log_ends_with_counts pending
  obtain ⟨records₃, _, h₃, -, -, -, -, -, hwhole⟩ := log_ends_with_counts whole
  obtain ⟨n, hn, -, rfl, -⟩ := hbroken rfl
  obtain ⟨rfl, -⟩ := hpending rfl
  obtain ⟨rfl, -⟩ := hwhole [.operand "a"] rfl
  rw [h₁, h₂, h₃, List.getLast?_append, List.getLast?_append, List.getLast?_append]
  exact ⟨⟨n, hn, rfl⟩, rfl, rfl⟩

end Polish
