/-
**A conversion follows the law of emission.**

`Polish/Proofs/Emission.lean` says when each token of the input is emitted, by looking at the whole
input.  A conversion sees one token at a time and compares it with the top of its stack.  The two
agree: with every entry of the stack goes the position from which it came, and then the entries that
leave with a token are the operators which that token releases.  Those above the first entry that
stands its ground are in the group of the token, and all the others in the group are looser still;
whatever lies below a left parenthesis is in another group.

Main definitions:

* `Polish.entryAt`, `Polish.brackets` — what the token at a position puts on the stack, and the
  left parentheses among some positions;
* `Polish.Waits` — the positions of a stack, from the top down, with the groups of its operators;
* `Polish.Snapshot` — **the state of a conversion, told in positions**.

Main results:

* `Polish.Waits.releases_rightParen`, `Polish.Waits.releases_binary` — what leaves the stack is what
  is released;
* `Polish.Snapshot.step`, `Polish.Yard.Reached.exists_snapshot` — one step, and every state that is
  reached;
* `Polish.convert_eq_emissionOrder` — **the output is in the order of emission**.
-/

import Polish.Proofs.Balance
import Polish.Proofs.Emission
import Polish.Proofs.StackOrder

set_option relaxedAutoImplicit false
set_option autoImplicit false

namespace Polish

open Pending (operators)
open Yard (Shunts Reached)

/-! ### Positions on the stack -/

/-- What the token at a position puts on the stack, if it puts something there. -/
def entryAt (ts : List Token) (i : Nat) : Pending :=
  match ts[i]? with
  | some (.operator o) => .operator o
  | _ => .bracket

/-- The left parentheses among some positions. -/
def brackets (ts : List Token) (ws : List Nat) : List Nat :=
  ws.filter fun i => (entryAt ts i).isBracket

/-- The positions `ws` can be those of a stack, from the top down: they belong to operators and left
parentheses, and the groups open at an operator are those whose left parentheses lie below it. -/
inductive Waits (ts : List Token) : List Nat → Prop
  | nil : Waits ts []
  | operator {i : Nat} {ws : List Nat} {o : Operator} : ts[i]? = some (.operator o) →
      openAt ts i = brackets ts ws → Waits ts ws → Waits ts (i :: ws)
  | bracket {i : Nat} {ws : List Nat} : ts[i]? = some .leftParen → Waits ts ws → Waits ts (i :: ws)

section Positions

variable {ts : List Token} {i j k b : Nat} {ws : List Nat} {o : Operator} {c : Connective}

theorem entryAt_operator (h : ts[i]? = some (.operator o)) : entryAt ts i = .operator o := by
  rw [entryAt, h]

theorem entryAt_leftParen (h : ts[i]? = some .leftParen) : entryAt ts i = .bracket := by
  rw [entryAt, h]

theorem brackets_cons_operator (h : ts[i]? = some (.operator o)) :
    brackets ts (i :: ws) = brackets ts ws := by
  rw [brackets, List.filter_cons, entryAt_operator h]
  rfl

theorem brackets_cons_leftParen (h : ts[i]? = some .leftParen) :
    brackets ts (i :: ws) = i :: brackets ts ws := by
  rw [brackets, List.filter_cons, entryAt_leftParen h]
  rfl

/-- The positions of operators hold these operators. -/
theorem tokensAt_operators {ps : List Nat} (h : ∀ i ∈ ps, ∃ o, ts[i]? = some (.operator o)) :
    tokensAt ts ps = (operators (ps.map (entryAt ts))).map .operator := by
  induction ps with
  | nil => rfl
  | cons i ps ih =>
      obtain ⟨o, ho⟩ := h i List.mem_cons_self
      have ih' := ih fun j hj => h j (List.mem_cons_of_mem i hj)
      rw [tokensAt, List.filterMap_cons, ho, List.map_cons, entryAt_operator ho]
      exact congrArg (Token.operator o :: ·) ih'

theorem tokensAt_append (ps qs : List Nat) :
    tokensAt ts (ps ++ qs) = tokensAt ts ps ++ tokensAt ts qs :=
  List.filterMap_append

theorem brackets_append (vs : List Nat) :
    brackets ts (vs ++ ws) = brackets ts vs ++ brackets ts ws :=
  List.filter_append _ _

theorem brackets_operators (h : ∀ i ∈ ws, ∃ o, ts[i]? = some (.operator o)) :
    brackets ts ws = [] := by
  refine List.filter_eq_nil_iff.2 ?_
  intro i hi
  obtain ⟨o, ho⟩ := h i hi
  simp [entryAt_operator ho, Pending.isBracket]

theorem Waits.suffix (h : Waits ts ws) {vs : List Nat} (hs : vs <:+ ws) : Waits ts vs := by
  induction h with
  | nil =>
      rw [List.suffix_nil.1 hs]
      exact Waits.nil
  | operator hi hgroup hw ih =>
      rcases List.suffix_cons_iff.1 hs with rfl | hs
      · exact Waits.operator hi hgroup hw
      · exact ih hs
  | bracket hi hw ih =>
      rcases List.suffix_cons_iff.1 hs with rfl | hs
      · exact Waits.bracket hi hw
      · exact ih hs

/-! ### What is released -/

theorem exists_operator_of_releases (h : releases ts i k = true) :
    ∃ o, ts[i]? = some (.operator o) := by
  obtain ⟨-, -, o, ho, -⟩ := releases_iff.1 h
  exact ⟨o, ho⟩

/-- Only connectives and right parentheses release anything. -/
theorem not_releases_of_ne (hc : ∀ c : Connective, ts[k]? ≠ some (.operator (.binary c)))
    (hp : ts[k]? ≠ some .rightParen) : releases ts i k = false := by
  by_contra hr
  obtain ⟨-, -, o, -, ⟨c, hk, -⟩ | hk⟩ := releases_iff.1 (by simpa using hr)
  · exact hc c hk
  · exact hp hk

theorem not_releases_of_leftParen (h : ts[i]? = some .leftParen) : releases ts i k = false := by
  by_contra hr
  obtain ⟨-, -, o, ho, -⟩ := releases_iff.1 (by simpa using hr)
  rw [h] at ho
  simp at ho

/-- A connective does not release an operator that binds looser. -/
theorem not_releases_of_yieldsTo (hi : ts[i]? = some (.operator o))
    (ht : ts[k]? = some (.operator (.binary c))) (h : o.yieldsTo (.binary c) = false) :
    releases ts i k = false := by
  by_contra hr
  obtain ⟨-, -, o', ho, ⟨d, hd, hle⟩ | hp⟩ := releases_iff.1 (by simpa using hr)
  · obtain rfl : o = o' := by simpa [hi] using ho
    obtain rfl : c = d := by simpa [ht] using hd
    have hgt := Operator.yieldsTo_binary_eq_false_iff.1 h
    omega
  · rw [ht] at hp
    simp at hp

/-- What stands before the left parenthesis of a group is not in the group. -/
theorem not_releases_of_lt (hk : group ts k = some b) (hj : j < b) : releases ts j k = false := by
  by_contra hr
  obtain ⟨-, hgroup, -⟩ := releases_iff.1 (by simpa using hr)
  have hb := lt_of_mem_openAt (List.mem_of_mem_head? (hgroup.trans hk))
  omega

theorem group_eq_of_openAt_eq (h : openAt ts i = openAt ts j) : group ts i = group ts j := by
  rw [group, group, h]

/-- A right parenthesis **releases the operators above the left one**, and nothing else. -/
theorem Waits.releases_rightParen (h : Waits ts ws) (hlatest : ws.Pairwise (· > ·))
    (hlt : ∀ i ∈ ws, i < k) (ht : ts[k]? = some .rightParen) (hopen : openAt ts k = brackets ts ws) :
    (∀ i ∈ ws.takeWhile (fun i => !(entryAt ts i).isBracket), releases ts i k = true) ∧
      ∀ i ∈ ws.dropWhile (fun i => !(entryAt ts i).isBracket), releases ts i k = false := by
  induction h with
  | nil => simp
  | @operator i ws o hi hgroup hw ih =>
      have hlatest' := List.pairwise_cons.1 hlatest
      rw [brackets_cons_operator hi] at hopen
      obtain ⟨iht, ihd⟩ := ih hlatest'.2 (fun j hj => hlt j (List.mem_cons_of_mem i hj)) hopen
      rw [List.takeWhile_cons, List.dropWhile_cons, entryAt_operator hi]
      refine ⟨?_, ihd⟩
      intro j hj
      rcases List.mem_cons.1 hj with rfl | hj
      · refine releases_iff.2 ⟨hlt j List.mem_cons_self, ?_, o, hi, Or.inr ht⟩
        exact group_eq_of_openAt_eq (hgroup.trans hopen.symm)
      · exact iht j hj
  | @bracket i ws hi hw _ =>
      have hlatest' := List.pairwise_cons.1 hlatest
      rw [brackets_cons_leftParen hi] at hopen
      rw [List.takeWhile_cons, List.dropWhile_cons, entryAt_leftParen hi]
      refine ⟨by simp [Pending.isBracket], ?_⟩
      intro j hj
      rcases List.mem_cons.1 hj with rfl | hj
      · exact not_releases_of_leftParen hi
      · exact not_releases_of_lt (by rw [group, hopen]; rfl) (hlatest'.1 j hj)

/-- A connective **releases the operators above the first entry that stands its ground**, and
nothing else. -/
theorem Waits.releases_binary (h : Waits ts ws) (hlatest : ws.Pairwise (· > ·))
    (hlt : ∀ i ∈ ws, i < k) (ht : ts[k]? = some (.operator (.binary c)))
    (hopen : openAt ts k = brackets ts ws) (hset : Settled (ws.map (entryAt ts))) :
    (∀ i ∈ ws.takeWhile (fun i => (entryAt ts i).yieldsTo (.binary c)), releases ts i k = true) ∧
      ∀ i ∈ ws.dropWhile (fun i => (entryAt ts i).yieldsTo (.binary c)),
        releases ts i k = false := by
  induction h with
  | nil => simp
  | @operator i ws o hi hgroup hw ih =>
      have hlatest' := List.pairwise_cons.1 hlatest
      rw [brackets_cons_operator hi] at hopen
      rw [List.map_cons, entryAt_operator hi] at hset
      obtain ⟨iht, ihd⟩ := ih hlatest'.2 (fun j hj => hlt j (List.mem_cons_of_mem i hj)) hopen
        (hset.suffix (List.suffix_cons _ _))
      rw [List.takeWhile_cons, List.dropWhile_cons, entryAt_operator hi]
      cases hyield : o.yieldsTo (.binary c) with
      | true =>
          rw [Operator.yieldsTo_binary, decide_eq_true_eq] at hyield
          have hyield' : (Pending.operator o).yieldsTo (.binary c) = true := by
            simpa [Pending.yieldsTo] using hyield
          rw [hyield']
          refine ⟨?_, ihd⟩
          intro j hj
          rcases List.mem_cons.1 hj with rfl | hj
          · refine releases_iff.2 ⟨hlt j List.mem_cons_self, ?_, o, hi, Or.inl ⟨c, ht, hyield⟩⟩
            exact group_eq_of_openAt_eq (hgroup.trans hopen.symm)
          · exact iht j hj
      | false =>
          -- nothing further down the group gives way either
          have hyield' : (Pending.operator o).yieldsTo (.binary c) = false := hyield
          have hbelow := hset.dropWhile_below hyield
          rw [List.dropWhile_map] at hbelow
          have hall : ws.dropWhile (fun i => (entryAt ts i).yieldsTo (.binary c)) = ws := by
            refine (List.dropWhile_suffix _).eq_of_length ?_
            have hlen := congrArg List.length hbelow
            rwa [List.length_map, List.length_map] at hlen
          rw [hall] at ihd
          rw [hyield']
          refine ⟨by simp, ?_⟩
          intro j hj
          rcases List.mem_cons.1 hj with rfl | hj
          · exact not_releases_of_yieldsTo hi ht hyield
          · exact ihd j hj
  | @bracket i ws hi hw _ =>
      have hlatest' := List.pairwise_cons.1 hlatest
      rw [brackets_cons_leftParen hi] at hopen
      rw [List.takeWhile_cons, List.dropWhile_cons, entryAt_leftParen hi]
      refine ⟨by simp [Pending.yieldsTo], ?_⟩
      intro j hj
      rcases List.mem_cons.1 hj with rfl | hj
      · exact not_releases_of_leftParen hi
      · exact not_releases_of_lt (by rw [group, hopen]; rfl) (hlatest'.1 j hj)

/-- The same for any operator: a negation releases nothing, and nothing gives way to it. -/
theorem Waits.releases_operator (h : Waits ts ws) (hlatest : ws.Pairwise (· > ·))
    (hlt : ∀ i ∈ ws, i < k) (ht : ts[k]? = some (.operator o))
    (hopen : openAt ts k = brackets ts ws) (hset : Settled (ws.map (entryAt ts))) :
    (∀ i ∈ ws.takeWhile (fun i => (entryAt ts i).yieldsTo o), releases ts i k = true) ∧
      ∀ i ∈ ws.dropWhile (fun i => (entryAt ts i).yieldsTo o), releases ts i k = false := by
  cases o with
  | binary c => exact h.releases_binary hlatest hlt ht hopen hset
  | neg =>
      constructor
      · intro i hi
        have hyield := List.all_eq_true.1 List.all_takeWhile i hi
        cases he : entryAt ts i with
        | operator top => simp [he, Pending.yieldsTo] at hyield
        | bracket => simp [he, Pending.yieldsTo] at hyield
      · intro i _
        exact not_releases_of_ne (by simp [ht]) (by simp [ht])

end Positions

/-! ### The state in positions -/

section Splitting

variable {α : Type} {p q : α → Bool} {xs : List α}

theorem filter_eq_takeWhile (htake : ∀ x ∈ xs.takeWhile p, q x = true)
    (hdrop : ∀ x ∈ xs.dropWhile p, q x = false) : xs.filter q = xs.takeWhile p := by
  conv => lhs; rw [← List.takeWhile_append_dropWhile (p := p) (l := xs)]
  rw [List.filter_append, List.filter_eq_self.2 htake,
    List.filter_eq_nil_iff.2 fun x hx => by simp [hdrop x hx], List.append_nil]

theorem mem_dropWhile_iff (htake : ∀ x ∈ xs.takeWhile p, q x = true)
    (hdrop : ∀ x ∈ xs.dropWhile p, q x = false) {x : α} :
    x ∈ xs.dropWhile p ↔ x ∈ xs ∧ q x = false := by
  constructor
  · intro hx
    exact ⟨(List.dropWhile_suffix p).subset hx, hdrop x hx⟩
  · rintro ⟨hx, hq⟩
    rw [← List.takeWhile_append_dropWhile (p := p) (l := xs)] at hx
    rcases List.mem_append.1 hx with hx | hx
    · rw [htake x hx] at hq
      simp at hq
    · exact hx

end Splitting

/-- The state of a conversion after the first `k` tokens, **told in positions**: `out` are those of
the output, and `ws` those of the stack. -/
structure Snapshot (ts : List Token) (k : Nat) (y : Yard) (out ws : List Nat) : Prop
    extends Emitted ts k out ws where
  moved : y.moved = tokensAt ts out
  stack : y.stack = ws.map (entryAt ts)
  waits : Waits ts ws
  opened : openAt ts k = brackets ts ws

theorem snapshot_zero (ts : List Token) : Snapshot ts 0 {} [] [] where
  toEmitted := emitted_zero ts
  moved := rfl
  stack := rfl
  waits := Waits.nil
  opened := rfl

namespace Snapshot

variable {ts : List Token} {k : Nat} {y : Yard} {out ws : List Nat}

/-- A token that releases nothing leaves all that waits where it is. -/
theorem advance_quiet (h : Snapshot ts k y out ws) {t : Token} (ht : ts[k]? = some t)
    (hno : ∀ i, releases ts i k = false) :
    Emitted ts (k + 1) (out ++ passing k t) (stacking k t ++ ws) := by
  have hadv := h.toEmitted.advance ht (List.Sublist.refl ws) (by simp [hno])
  have hfilter : ws.filter (releases ts · k) = [] := by
    refine List.filter_eq_nil_iff.2 ?_
    intro i _
    simp [hno i]
  rwa [hfilter, List.append_nil] at hadv

theorem step_operand (h : Snapshot ts k y out ws) {text : String}
    (ht : ts[k]? = some (.operand text)) :
    Snapshot ts (k + 1) { y with moves := y.moves.push (.passed text), read := y.read + 1 }
      (out ++ [k]) ws where
  toEmitted := h.advance_quiet ht fun i => not_releases_of_ne (by simp [ht]) (by simp [ht])
  moved := by
    rw [Yard.moved_push, h.moved, tokensAt_append]
    simp [tokensAt, ht, Move.token]
  stack := h.stack
  waits := h.waits
  opened := by
    rw [openAt, ht]
    exact h.opened

theorem step_leftParen (h : Snapshot ts k y out ws) (ht : ts[k]? = some .leftParen) :
    Snapshot ts (k + 1) { y with stack := .bracket :: y.stack, read := y.read + 1 }
      out (k :: ws) where
  toEmitted := by
    have hadv := h.advance_quiet ht fun i => not_releases_of_ne (by simp [ht]) (by simp [ht])
    simpa [passing, stacking] using hadv
  moved := h.moved
  stack := by rw [List.map_cons, entryAt_leftParen ht, h.stack]
  waits := Waits.bracket ht h.waits
  opened := by
    rw [openAt, ht, brackets_cons_leftParen ht]
    exact congrArg (k :: ·) h.opened

theorem step_operator (h : Snapshot ts k y out ws) (hy : Settled y.stack) {o : Operator}
    (ht : ts[k]? = some (.operator o)) :
    Snapshot ts (k + 1)
      { stack := .operator o :: y.stack.dropWhile (·.yieldsTo o)
        moves := y.moves ++ (operators (y.stack.takeWhile (·.yieldsTo o))).map (Move.yielded · o)
        read := y.read + 1 }
      (out ++ ws.takeWhile (fun i => (entryAt ts i).yieldsTo o))
      (k :: ws.dropWhile (fun i => (entryAt ts i).yieldsTo o)) := by
  obtain ⟨htake, hdrop⟩ := h.waits.releases_operator h.latest h.lt ht h.opened (h.stack ▸ hy)
  have hsuffix := List.dropWhile_suffix (fun i => (entryAt ts i).yieldsTo o) (l := ws)
  have hops : ∀ i ∈ ws.takeWhile (fun i => (entryAt ts i).yieldsTo o),
      ∃ o, ts[i]? = some (.operator o) :=
    fun i hi => exists_operator_of_releases (htake i hi)
  have hopen : openAt ts k =
      brackets ts (ws.dropWhile (fun i => (entryAt ts i).yieldsTo o)) := by
    have happ := List.takeWhile_append_dropWhile
      (p := fun i => (entryAt ts i).yieldsTo o) (l := ws)
    rw [h.opened, ← happ, brackets_append, brackets_operators hops, happ, List.nil_append]
  exact {
    toEmitted := by
      have hadv := h.toEmitted.advance ht hsuffix.sublist
        fun i _ _ => mem_dropWhile_iff htake hdrop
      rw [filter_eq_takeWhile htake hdrop] at hadv
      simpa [passing, stacking] using hadv
    moved := by
      rw [Yard.moved_append, Yard.map_token_map (.yielded · o) (fun _ => rfl), h.moved, h.stack,
        List.takeWhile_map, tokensAt_append, tokensAt_operators hops]
      rfl
    stack := by
      simp only [List.map_cons, entryAt_operator ht, h.stack, List.dropWhile_map]
      rfl
    waits := Waits.operator ht hopen (h.waits.suffix hsuffix)
    opened := by
      rw [openAt, ht, brackets_cons_operator ht]
      exact hopen }

theorem step_rightParen (h : Snapshot ts k y out ws) (ht : ts[k]? = some .rightParen)
    {outer : List Pending} (he : y.enclosing = .bracket :: outer) :
    ∃ ws', Snapshot ts (k + 1)
      { stack := outer, moves := y.moves ++ (operators y.innermost).map Move.closed,
        read := y.read + 1 }
      (out ++ ws.takeWhile (fun i => !(entryAt ts i).isBracket)) ws' := by
  obtain ⟨htake, hdrop⟩ := h.waits.releases_rightParen h.latest h.lt ht h.opened
  have hops : ∀ i ∈ ws.takeWhile (fun i => !(entryAt ts i).isBracket),
      ∃ o, ts[i]? = some (.operator o) :=
    fun i hi => exists_operator_of_releases (htake i hi)
  have hsplit := List.takeWhile_append_dropWhile
    (p := fun i => !(entryAt ts i).isBracket) (l := ws)
  have hinnermost : y.innermost =
      (ws.takeWhile (fun i => !(entryAt ts i).isBracket)).map (entryAt ts) := by
    rw [Yard.innermost, h.stack, List.takeWhile_map]
    rfl
  have henclosing : (ws.dropWhile (fun i => !(entryAt ts i).isBracket)).map (entryAt ts) =
      .bracket :: outer := by
    rw [← he, Yard.enclosing, h.stack, List.dropWhile_map]
    rfl
  -- the left parenthesis goes, and the rest of the stack stays
  obtain ⟨b, ws', hb, hbracket, rfl⟩ := List.map_eq_cons_iff.1 henclosing
  have hsuffix : b :: ws' <:+ ws := hb ▸ List.dropWhile_suffix _
  have hwaits : Waits ts (b :: ws') := h.waits.suffix hsuffix
  have hparen : ts[b]? = some .leftParen := by
    cases hwaits with
    | operator hi _ _ =>
        rw [entryAt_operator hi] at hbracket
        cases hbracket
    | bracket hi _ => exact hi
  have hopen : openAt ts k = b :: brackets ts ws' := by
    rw [h.opened, ← hsplit, brackets_append, brackets_operators hops, hb, List.nil_append,
      brackets_cons_leftParen hparen]
  refine ⟨ws', ?_⟩
  exact {
    toEmitted := by
      have hrest : ∀ i o, ts[i]? = some (.operator o) →
          (i ∈ ws' ↔ i ∈ ws ∧ releases ts i k = false) := by
        intro i o ho
        rw [← mem_dropWhile_iff htake hdrop, hb, List.mem_cons]
        constructor
        · exact Or.inr
        · rintro (rfl | hi)
          · rw [hparen] at ho
            cases ho
          · exact hi
      have hadv := h.toEmitted.advance ht ((List.sublist_cons_self b ws').trans hsuffix.sublist)
        hrest
      rw [filter_eq_takeWhile htake hdrop] at hadv
      simpa [passing, stacking] using hadv
    moved := by
      rw [Yard.moved_append, Yard.map_token_map .closed (fun _ => rfl), h.moved, hinnermost,
        tokensAt_append, tokensAt_operators hops]
    stack := rfl
    waits := hwaits.suffix (List.suffix_cons b ws')
    opened := by
      rw [openAt, ht, hopen]
      rfl }

/-- **One step**: the operators that leave the stack are those that the token releases. -/
theorem step (h : Snapshot ts k y out ws) (hy : Settled y.stack) {t : Token} {y' : Yard}
    (ht : ts[k]? = some t) (hs : Shunts y t y') :
    ∃ out' ws', Snapshot ts (k + 1) y' out' ws' := by
  cases hs with
  | operand text => exact ⟨_, _, h.step_operand ht⟩
  | operator o => exact ⟨_, _, h.step_operator hy ht⟩
  | leftParen => exact ⟨_, _, h.step_leftParen ht⟩
  | rightParen he =>
      obtain ⟨ws', h'⟩ := h.step_rightParen ht he
      exact ⟨_, ws', h'⟩

end Snapshot

/-- **Every state that is reached** can be told in positions, whatever comes after. -/
theorem Yard.Reached.exists_snapshot {pre : List Token} {y : Yard} (h : Reached pre y)
    (post : List Token) : ∃ out ws, Snapshot (pre ++ post) pre.length y out ws := by
  induction h generalizing post with
  | start => exact ⟨[], [], snapshot_zero _⟩
  | @step ts y y' t hr hs ih =>
      obtain ⟨out, ws, hsnap⟩ := ih (t :: post)
      rw [List.append_cons] at hsnap
      have ht : (ts ++ [t] ++ post)[ts.length]? = some t := by simp
      obtain ⟨out', ws', hsnap'⟩ := hsnap.step hr.settled ht hs
      rw [List.length_append]
      exact ⟨out', ws', hsnap'⟩

/-! ### The output -/

/-- At the end of matched tokens nothing but operators waits. -/
theorem Waits.exists_operator {ts : List Token} {ws : List Nat} (h : Waits ts ws)
    (hb : brackets ts ws = []) : ∀ i ∈ ws, ∃ o, ts[i]? = some (.operator o) := by
  induction h with
  | nil => simp
  | @operator i ws o hi _ _ ih =>
      rw [brackets_cons_operator hi] at hb
      intro j hj
      rcases List.mem_cons.1 hj with rfl | hj
      · exact ⟨o, hi⟩
      · exact ih hb j hj
  | bracket hi _ _ =>
      rw [brackets_cons_leftParen hi] at hb
      cases hb

/-- Without a left parenthesis on the stack nothing but operators waits. -/
theorem Snapshot.exists_operator {ts : List Token} {k : Nat} {y : Yard} {out ws : List Nat}
    (h : Snapshot ts k y out ws) (hdepth : y.depth = 0) :
    ∀ i ∈ ws, ∃ o, ts[i]? = some (.operator o) := by
  refine h.waits.exists_operator (List.filter_eq_nil_iff.2 fun i hi => ?_)
  have hmem : entryAt ts i ∈ y.stack := by
    rw [h.stack]
    exact List.mem_map_of_mem hi
  exact List.countP_eq_zero.1 hdepth _ hmem

/-- What waits at the end of the input is emitted then, the latest first. -/
theorem Emitted.complete {ts : List Token} {out ws : List Nat}
    (h : Emitted ts ts.length out ws) (hops : ∀ i ∈ ws, ∃ o, ts[i]? = some (.operator o)) :
    out ++ ws = emissionOrder ts := by
  have htime : ∀ i ∈ ws, emission ts i = ts.length := by
    intro i hi
    obtain ⟨o, ho⟩ := hops i hi
    have hle := emission_le_length (isProper_of_operator ho)
    have hge := ((h.mem_waiting i o ho).1 hi).2
    omega
  refine eq_emissionOrder ?_ ?_
  · intro i
    rw [List.mem_append, h.mem_out]
    constructor
    · rintro (⟨hp, -⟩ | hi)
      · exact hp
      · exact isProper_iff.2 (Or.inr (hops i hi))
    · intro hp
      by_cases hlt : emission ts i < ts.length
      · exact Or.inl ⟨hp, hlt⟩
      · rcases isProper_iff.1 hp with ⟨text, hi⟩ | ⟨o, ho⟩
        · rw [emission_operand hi] at hlt
          exact absurd (lt_length_of_isProper hp) hlt
        · exact Or.inr ((h.mem_waiting i o ho).2 ⟨lt_length_of_isProper hp, by omega⟩)
  · refine List.pairwise_append.2 ⟨h.sorted, ?_, ?_⟩
    · refine h.latest.imp_of_mem ?_
      intro i j hi hj hgt
      exact Or.inr ⟨(htime i hi).trans (htime j hj).symm, hgt⟩
    · intro i hi j hj
      have hlt := ((h.mem_out i).1 hi).2
      exact Or.inl (by rw [htime j hj]; exact hlt)

/-- The output of a conversion of matched tokens, whether or not they are an expression, is **in
the order of emission**. -/
theorem convert_eq_emissionOrder {ts : List Token} (h : Matched ts) :
    convert ts = .ok (tokensAt ts (emissionOrder ts)) := by
  obtain ⟨y, hy⟩ := Yard.exists_reached_iff.2 h.1
  obtain ⟨out, ws, hsnap⟩ := hy.exists_snapshot []
  rw [List.append_nil] at hsnap
  have hdepth : y.depth = 0 := by
    have hd := hy.depth
    have hz := h.2
    omega
  have hbrackets : brackets ts ws = [] := by
    refine List.filter_eq_nil_iff.2 ?_
    intro i hi
    have hmem : entryAt ts i ∈ y.stack := by
      rw [hsnap.stack]
      exact List.mem_map_of_mem hi
    exact List.countP_eq_zero.1 hdepth _ hmem
  have hops := hsnap.waits.exists_operator hbrackets
  rw [convert, runOf_of_reached hy, Yard.outcome_finish hdepth, hsnap.stack, hsnap.moved,
    ← tokensAt_operators hops, ← tokensAt_append, hsnap.complete hops]

/-- Matched tokens that are no expression: operators without operands, and an empty group. -/
theorem convert_eq_emissionOrder_stray :
    let tokens := [Token.operator (.binary .conj), .operand "a", .leftParen, .rightParen,
      .operator .neg, .operand "b", .operator (.binary .disj), .leftParen, .operand "c",
      .operator (.binary .greater), .rightParen, .operator (.binary .less)]
    Matched tokens ∧ emissionOrder tokens = [1, 5, 4, 0, 8, 9, 11, 6] ∧
      convert tokens = .ok [.operand "a", .operand "b", .operator .neg,
        .operator (.binary .conj), .operand "c", .operator (.binary .greater),
        .operator (.binary .less), .operator (.binary .disj)] := by
  intro tokens
  have hmatched : Matched tokens := by decide
  have horder : [1, 5, 4, 0, 8, 9, 11, 6] = emissionOrder tokens := by
    have hproper : ∀ i < tokens.length,
        i ∈ [1, 5, 4, 0, 8, 9, 11, 6] ↔ isProper tokens i = true := by decide
    have hlist : ∀ i ∈ [1, 5, 4, 0, 8, 9, 11, 6], i < tokens.length := by decide
    refine eq_emissionOrder (fun i => ⟨fun hi => ?_, fun hi => ?_⟩) (by decide)
    · exact (hproper i (hlist i hi)).1 hi
    · exact (hproper i (lt_length_of_isProper hi)).2 hi
  refine ⟨hmatched, horder.symm, ?_⟩
  rw [convert_eq_emissionOrder hmatched, ← horder]
  rfl

end Polish
