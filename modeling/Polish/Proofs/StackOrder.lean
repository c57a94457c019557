/-
**The order of the stack.**

A token is compared with the top of the stack alone, and popping stops at the first entry that does
not give way.  Nothing is missed by that: when an operator is pushed, what it comes to lie on has
just refused to give way to it, so the operators of a group get looser from the top down, with the
negations above all others.  What lies below an entry that stands its ground stands its ground too.
As there are four levels of connectives, this bounds the stack: it grows with the parentheses that
are open and with the negations, and with nothing else.

Main definitions:

* `Polish.Settled` — **every operator lies on an entry that does not give way to it**;
* `Polish.Pending.token` — the token that waits as an entry of the stack.

Main results:

* `Polish.Yard.Reached.settled` — every state that is reached has a settled stack;
* `Polish.Settled.dropWhile_below` — below an operator that stands its ground, nothing gives way up
  to the next left parenthesis;
* `Polish.Settled.exists_negs` — operators that lie on each other are negations over connectives
  that get looser;
* `Polish.Settled.countP_isConnective_le` — a settled stack has four connectives for each of its left
  parentheses, and four more, at most;
* `Polish.Yard.Reached.stack_sublist` — what waits are tokens that have been read, in their order;
* `Polish.stack_shape` — **the shape of the stack** between any two tokens, and a bound on its
  length.
-/

import Polish.Proofs.Balance
import Mathlib.Data.List.Chain

set_option relaxedAutoImplicit false
set_option autoImplicit false

namespace Polish

/-- Every operator on the stack lies on an entry that does not give way to it. -/
def Settled (stack : List Pending) : Prop :=
  stack.IsChain fun upper lower => ∀ o, upper = .operator o → lower.yieldsTo o = false

namespace Settled

theorem suffix {stack below : List Pending} (h : Settled stack) (hs : below <:+ stack) :
    Settled below :=
  List.IsChain.suffix h hs

theorem bracket {stack : List Pending} (h : Settled stack) : Settled (.bracket :: stack) := by
  refine List.IsChain.cons h ?_
  intro e _ o ho
  cases ho

/-- An operator may be put on what is left when all that gives way to it has gone. -/
theorem operator {stack : List Pending} (h : Settled stack) (o : Operator) :
    Settled (.operator o :: stack.dropWhile (·.yieldsTo o)) := by
  refine List.IsChain.cons (h.suffix (List.dropWhile_suffix _)) ?_
  intro e he o' ho'
  cases ho'
  have hno := List.head?_dropWhile_not (fun e : Pending => e.yieldsTo o) stack
  rw [Option.mem_def.1 he] at hno
  exact hno

/-- What lies right below an operator that stands its ground against a connective does so too. -/
theorem dropWhile_below {top : Operator} {c : Connective} {stack : List Pending}
    (h : Settled (.operator top :: stack)) (htop : top.yieldsTo (.binary c) = false) :
    stack.dropWhile (·.yieldsTo (.binary c)) = stack := by
  cases stack with
  | nil => rfl
  | cons e stack =>
      have hrest : e.yieldsTo top = false := List.IsChain.rel_head? h rfl top rfl
      have hlt := Operator.yieldsTo_binary_eq_false_iff.1 htop
      have he : e.yieldsTo (.binary c) = false := by
        cases e with
        | bracket => rfl
        | operator lower =>
            refine Operator.yieldsTo_binary_eq_false_iff.2 ?_
            cases top with
            | neg =>
                -- a negation gives way to every connective
                have hc := c.precedence_le
                rw [Operator.precedence_neg] at hlt
                omega
            | binary d =>
                have hlower := Operator.yieldsTo_binary_eq_false_iff.1 hrest
                rw [Operator.precedence_binary] at hlt
                omega
      rw [List.dropWhile_cons, he]
      rfl

/-- From the top down, operators that lie on each other are **negations, and then connectives that
get looser**. -/
theorem exists_negs {os : List Operator} (h : Settled (os.map .operator)) :
    ∃ (n : Nat) (cs : List Connective), os = List.replicate n .neg ++ cs.map .binary ∧
      cs.Pairwise fun c d => d.precedence < c.precedence := by
  induction os with
  | nil => exact ⟨0, [], rfl, List.Pairwise.nil⟩
  | cons o os ih =>
      obtain ⟨n, cs, rfl, hcs⟩ := ih (h.suffix (List.suffix_cons _ _))
      cases o with
      | neg => exact ⟨n + 1, cs, rfl, hcs⟩
      | binary c =>
          have hlower : ∀ lower ∈ (List.replicate n Operator.neg ++ cs.map Operator.binary).head?,
              lower.precedence < c.precedence := by
            intro lower hl
            have hmem := Option.mem_map_of_mem Pending.operator hl
            rw [← List.head?_map] at hmem
            have hno : (Pending.operator lower).yieldsTo (.binary c) = false :=
              List.IsChain.rel_head? h hmem _ rfl
            exact Operator.yieldsTo_binary_eq_false_iff.1 hno
          cases n with
          | succ n =>
              -- a negation lies on no connective that is tighter
              have hneg := hlower .neg rfl
              have hc := c.precedence_le
              rw [Operator.precedence_neg] at hneg
              omega
          | zero =>
              refine ⟨0, c :: cs, rfl, List.pairwise_cons.2 ⟨?_, hcs⟩⟩
              intro d hd
              cases cs with
              | nil => simp at hd
              | cons e cs =>
                  have he : e.precedence < c.precedence := hlower (.binary e) rfl
                  rcases List.mem_cons.1 hd with rfl | hd
                  · exact he
                  · exact Nat.lt_trans ((List.pairwise_cons.1 hcs).1 d hd) he

end Settled

namespace Yard

theorem Shunts.settled {y y' : Yard} {t : Token} (h : Shunts y t y') (hy : Settled y.stack) :
    Settled y'.stack := by
  cases h with
  | operand text => exact hy
  | operator o => exact hy.operator o
  | leftParen => exact hy.bracket
  | @rightParen outer he =>
      refine hy.suffix ⟨y.innermost ++ [.bracket], ?_⟩
      rw [List.append_assoc, List.singleton_append, ← he]
      exact innermost_append_enclosing y

/-- Without a left parenthesis on it, the stack has nothing but operators. -/
theorem map_operators {y : Yard} (h : y.depth = 0) :
    (Pending.operators y.stack).map .operator = y.stack := by
  have hsome : ∀ e ∈ y.stack, e.operator?.map Pending.operator = some e := by
    rw [← innermost_eq_stack h]
    intro e he
    obtain ⟨o, rfl⟩ := eq_operator_of_mem_innermost he
    rfl
  rw [Pending.operators, List.map_filterMap, List.filterMap_congr hsome]
  exact List.filterMap_some

/-- **Every state that is reached has a settled stack.** -/
theorem Reached.settled {ts : List Token} {y : Yard} (h : Reached ts y) : Settled y.stack := by
  induction h with
  | start => exact List.IsChain.nil
  | step _ hs ih => exact hs.settled ih

end Yard

/-! ### How many connectives wait -/

namespace Pending

/-- Whether this entry is a connective. -/
def isConnective : Pending → Bool
  | .operator (.binary _) => true
  | _ => false

/-- The token that waits here. -/
def token : Pending → Token
  | .operator o => .operator o
  | .bracket => .leftParen

/-- What waits is a left parenthesis, a connective or a negation. -/
theorem length_eq_add_count (stack : List Pending) :
    stack.length =
      stack.countP isBracket + stack.countP isConnective + stack.count (.operator .neg) := by
  induction stack with
  | nil => rfl
  | cons e stack ih =>
      rw [List.length_cons, ih, List.countP_cons, List.countP_cons, List.count_cons]
      cases e with
      | bracket => simp [isBracket, isConnective]; omega
      | operator o => cases o <;> simp [isBracket, isConnective] <;> omega

end Pending

/-- Below what lets the connective `c` wait on it there are no connectives but those that are looser
than `c`, up to the next left parenthesis; and there are at most four in every case. -/
theorem Settled.countP_isConnective_le_add {stack : List Pending} (h : Settled stack) :
    (∀ c : Connective, (∀ e ∈ stack.head?, e.yieldsTo (.binary c) = false) →
      stack.countP Pending.isConnective ≤ 4 * stack.countP Pending.isBracket + c.precedence) ∧
    stack.countP Pending.isConnective ≤ 4 * stack.countP Pending.isBracket + 4 := by
  induction stack with
  | nil => simp
  | cons e stack ih =>
      obtain ⟨ihc, ih⟩ := ih (h.suffix (List.suffix_cons e stack))
      cases e with
      | bracket =>
          simp only [List.countP_cons, Pending.isConnective, Pending.isBracket, if_true,
            Bool.false_eq_true, if_false]
          exact ⟨fun _ _ => by omega, by omega⟩
      | operator o =>
          cases o with
          | neg =>
              simp only [List.countP_cons, Pending.isConnective, Pending.isBracket]
              refine ⟨fun c hc => ?_, by simpa using ih⟩
              -- a negation lets no connective wait on it
              have hle := Operator.yieldsTo_binary_eq_false_iff.1 (hc _ rfl)
              have hc := c.precedence_le
              rw [Operator.precedence_neg] at hle
              omega
          | binary b =>
              have hb := ihc b fun e he => List.IsChain.rel_head? h he _ rfl
              have hle := b.precedence_le
              simp only [List.countP_cons, Pending.isConnective, Pending.isBracket, if_true,
                Bool.false_eq_true, if_false]
              refine ⟨fun c hc => ?_, by omega⟩
              have hlt : b.precedence < c.precedence :=
                Operator.yieldsTo_binary_eq_false_iff.1 (hc _ rfl)
              omega

/-- A settled stack has **four connectives for each left parenthesis**, and four more, at most. -/
theorem Settled.countP_isConnective_le {stack : List Pending} (h : Settled stack) :
    stack.countP Pending.isConnective ≤ 4 * stack.countP Pending.isBracket + 4 :=
  h.countP_isConnective_le_add.2

/-- From the bottom up, operators that lie on each other are **at most four connectives that get
tighter**, and then negations. -/
theorem Settled.exists_connectives {stack : List Pending} {os : List Operator}
    (h : Settled stack) (hos : os.reverse.map .operator <:+: stack) :
    ∃ (cs : List Connective) (n : Nat), os = cs.map .binary ++ List.replicate n .neg ∧
      (cs.Pairwise fun c d => c.precedence < d.precedence) ∧ cs.length ≤ 4 := by
  have hrun : Settled (os.reverse.map .operator) := List.IsChain.infix h hos
  obtain ⟨n, cs, hcs, hpairwise⟩ := hrun.exists_negs
  refine ⟨cs.reverse, n, ?_, List.pairwise_reverse.2 hpairwise, ?_⟩
  · rw [← List.reverse_reverse os, hcs]
    simp
  · have hle := hrun.countP_isConnective_le
    rw [hcs] at hle
    simpa [List.countP_map, Function.comp_def, Pending.isConnective, Pending.isBracket,
      List.countP_replicate] using hle

/-! ### The shape of the stack -/

namespace Yard

theorem Shunts.stack_sublist {y y' : Yard} {t : Token} (h : Shunts y t y') :
    (y'.stack.reverse.map Pending.token).Sublist
      (y.stack.reverse.map Pending.token ++ [t]) := by
  cases h with
  | operand text => exact List.sublist_append_left _ _
  | operator o =>
      have hsub : (y.stack.dropWhile (·.yieldsTo o)).Sublist y.stack :=
        (List.dropWhile_suffix _).sublist
      rw [List.reverse_cons, List.map_append]
      exact (hsub.reverse.map _).append_right _
  | leftParen => simp [Pending.token]
  | @rightParen outer he =>
      have hsub : outer.Sublist y.stack := by
        rw [← innermost_append_enclosing y, he]
        exact (List.sublist_cons_self _ _).trans (List.sublist_append_right _ _)
      exact (hsub.reverse.map _).trans (List.sublist_append_left _ _)

/-- From the bottom up, what waits are **tokens that have been read**, in their order. -/
theorem Reached.stack_sublist {ts : List Token} {y : Yard} (h : Reached ts y) :
    (y.stack.reverse.map Pending.token).Sublist ts := by
  induction h with
  | start => exact List.Sublist.refl _
  | step _ hs ih => exact hs.stack_sublist.trans (ih.append_right _)

/-- No more negations wait than have been read. -/
theorem Reached.count_neg_le {ts : List Token} {y : Yard} (h : Reached ts y) :
    y.stack.count (.operator .neg) ≤ ts.count (.operator .neg) := by
  calc y.stack.count (.operator .neg)
      = y.stack.reverse.count (.operator .neg) := List.count_reverse.symm
    _ ≤ (y.stack.reverse.map Pending.token).count (.operator .neg) :=
        List.count_le_count_map (f := Pending.token) (x := .operator .neg)
    _ ≤ ts.count (.operator .neg) := h.stack_sublist.count_le _

end Yard

/-- **The shape of the stack** between any two tokens, wherever the input goes on from there.  From
the bottom up it holds operators and left parentheses that have been read, and as many of the latter
as are open.  Operators that lie on each other are connectives that get tighter, of which there are
at most four, and then negations.  So the open parentheses and the negations read bound its
length. -/
theorem stack_shape {ts : List Token} {y : Yard} (h : Yard.Reached ts y) :
    (∀ us, runOf (ts ++ us) = y.feed us) ∧
    (y.stack.reverse.map Pending.token).Sublist ts ∧
    (∀ t ∈ y.stack.map Pending.token, (∃ o, t = .operator o) ∨ t = .leftParen) ∧
    y.depth + ts.count .rightParen = ts.count .leftParen ∧
    (∀ os : List Operator, os.reverse.map .operator <:+: y.stack →
      ∃ (cs : List Connective) (n : Nat), os = cs.map .binary ++ List.replicate n .neg ∧
        (cs.Pairwise fun c d => c.precedence < d.precedence) ∧ cs.length ≤ 4) ∧
    y.stack.length ≤ 5 * y.depth + 4 + ts.count (.operator .neg) := by
  refine ⟨Yard.feed_append_of_ok (Yard.reached_iff_shuntAll.1 h), h.stack_sublist, ?_, ?_,
    fun os hos => h.settled.exists_connectives hos, ?_⟩
  · intro t ht
    obtain ⟨e, -, rfl⟩ := List.mem_map.1 ht
    cases e with
    | operator o => exact .inl ⟨o, rfl⟩
    | bracket => exact .inr rfl
  · have hdepth := h.depth
    rw [excess, surplus] at hdepth
    omega
  · have hlength := Pending.length_eq_add_count y.stack
    have hconnectives := h.settled.countP_isConnective_le
    have hnegs := h.count_neg_le
    rw [Yard.depth]
    omega

/-- Two runs of four connectives, with a left parenthesis between them and a negation on top: the
bound is met. -/
theorem stack_shape_full :
    let tokens := [Token.operator (.binary .disj), .operand "a", .operator (.binary .conj),
      .operator (.binary .equal), .operator (.binary .less), .leftParen, .operator (.binary .disj),
      .operator (.binary .conj), .operator (.binary .equal), .operand "b",
      .operator (.binary .greater), .operator .neg]
    ∃ y, Yard.Reached tokens y ∧ y.stack.length = 5 * 1 + 4 + 1 ∧
      y.stack.length ≤ 5 * y.depth + 4 + tokens.count (.operator .neg) := by
  intro tokens
  refine ⟨_, Yard.reached_iff_shuntAll.2 rfl, rfl, ?_⟩
  exact (stack_shape (Yard.reached_iff_shuntAll.2 rfl)).2.2.2.2.2

end Polish
