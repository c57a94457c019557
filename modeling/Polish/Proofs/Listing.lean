/-
**What is written in infix order comes out in postfix order.**

The tokens that write a tree are read on top of whatever waits on the stack already.  As long as
nothing there gives way to the connectives of the level at which the tree is written, reading them
leaves the old stack as it was: a beginning of the listing of the tree goes to the output, and the
rest of it waits on top, ready to leave from the top down.  That is what an induction over the
derivation carries from the operands to the whole expression.  Nothing in it needs the tokens to be
an expression, so it is said for any tokens and the postfix form that they add.

Main definitions:

* `Polish.Guards` — nothing on top of the stack gives way to the connectives of a level;
* `Polish.Adds` — **reading some tokens adds a postfix form**, over every guarded stack.

Main results:

* `Polish.Adds.binary`, `Polish.Adds.neg`, `Polish.Adds.operand`, `Polish.Adds.group` — what is
  added by tokens that are put together;
* `Polish.Writes.adds` — hence every derivation adds the listing of its tree;
* `Polish.convert_of_writes` — **the postfix form of an expression is the listing of its tree**.
-/

import Polish.Proofs.Reading
import Polish.Grammar

set_option relaxedAutoImplicit false
set_option autoImplicit false

namespace Polish

open Pending (operators)

/-! ### Stacks that keep still -/

/-- Nothing on top of the stack gives way to a connective of level `n` or tighter. -/
def Guards (n : Nat) (stack : List Pending) : Prop :=
  ∀ e ∈ stack.head?, ∀ c : Connective, n ≤ c.precedence → e.yieldsTo (.binary c) = false

theorem Guards.mono {m n : Nat} {stack : List Pending} (h : Guards m stack) (hmn : m ≤ n) :
    Guards n stack := by
  intro e he c hc
  exact h e he c (Nat.le_trans hmn hc)

/-- There is no connective beyond level 3. -/
theorem guards_four (stack : List Pending) : Guards 4 stack := by
  intro e _ c hc
  have hle := c.precedence_le
  omega

theorem guards_nil (n : Nat) : Guards n [] := by
  intro e he
  simp at he

theorem guards_bracket (n : Nat) (stack : List Pending) : Guards n (.bracket :: stack) := by
  intro e he c _
  cases he
  rfl

/-- A connective guards the levels that are tighter than its own. -/
theorem guards_binary (c : Connective) (stack : List Pending) :
    Guards (c.precedence + 1) (.operator (.binary c) :: stack) := by
  intro e he d hd
  cases he
  exact Operator.yieldsTo_binary_eq_false_iff.2 hd

theorem Guards.takeWhile {c : Connective} {stack : List Pending}
    (h : Guards c.precedence stack) : stack.takeWhile (·.yieldsTo (.binary c)) = [] := by
  cases stack with
  | nil => rfl
  | cons e stack =>
      have he := h e rfl c (Nat.le_refl _)
      rw [List.takeWhile_cons, he]
      rfl

theorem Guards.dropWhile {c : Connective} {stack : List Pending}
    (h : Guards c.precedence stack) : stack.dropWhile (·.yieldsTo (.binary c)) = stack := by
  cases stack with
  | nil => rfl
  | cons e stack =>
      have he := h e rfl c (Nat.le_refl _)
      rw [List.dropWhile_cons, he]
      rfl

/-- Over a guarded stack, a connective sends exactly the operators above it to the output. -/
theorem exists_shunt_binary {y : Yard} {c : Connective} {os : List Operator}
    {stack : List Pending} (hy : y.stack = os.map .operator ++ stack)
    (hos : ∀ o ∈ os, c.precedence ≤ o.precedence) (hg : Guards c.precedence stack) :
    ∃ y', y.shunt (.operator (.binary c)) = .ok y' ∧
      y'.stack = .operator (.binary c) :: stack ∧
      y'.moved = y.moved ++ os.map .operator := by
  have hyield : ∀ e ∈ os.map Pending.operator, e.yieldsTo (.binary c) = true := by
    intro e he
    obtain ⟨o, ho, rfl⟩ := List.mem_map.1 he
    simp [Pending.yieldsTo, hos o ho]
  obtain ⟨y', hs, hstack, hmoved⟩ := y.exists_shunt_operator (.binary c)
  refine ⟨y', hs, ?_, ?_⟩
  · rw [hstack, hy, List.dropWhile_append_of_pos hyield, hg.dropWhile]
  · rw [hmoved, hy, List.takeWhile_append_of_pos hyield, hg.takeWhile, List.append_nil,
      Yard.operators_map_operator]

/-- A right parenthesis sends the operators of its group to the output. -/
theorem exists_shunt_group {y : Yard} {os : List Operator} {outer : List Pending}
    (hy : y.stack = os.map .operator ++ .bracket :: outer) :
    ∃ y', y.shunt .rightParen = .ok y' ∧ y'.stack = outer ∧
      y'.moved = y.moved ++ os.map .operator := by
  have hos : ∀ e ∈ os.map Pending.operator, (!e.isBracket) = true := by
    intro e he
    obtain ⟨o, -, rfl⟩ := List.mem_map.1 he
    rfl
  have henclosing : y.enclosing = .bracket :: outer := by
    rw [Yard.enclosing, hy, List.dropWhile_append_of_pos hos]
    rfl
  have hinnermost : y.innermost = os.map .operator := by
    rw [Yard.innermost, hy, List.takeWhile_append_of_pos hos]
    simp [Pending.isBracket]
  obtain ⟨y', hs, hstack, hmoved⟩ := Yard.exists_shunt_rightParen henclosing
  exact ⟨y', hs, hstack, by rw [hmoved, hinnermost, Yard.operators_map_operator]⟩

/-! ### Reading over a guarded stack -/

/-- At level `n`, **reading the tokens adds the form**: over a guarded stack, a beginning of it goes
to the output, and the operators that are left of it wait on the stack in their order, none of them
looser than the level. -/
def Adds (n : Nat) (ts form : List Token) : Prop :=
  ∀ y : Yard, Guards n y.stack → ∃ (y' : Yard) (out : List Token) (os : List Operator),
    y.shuntAll ts = .ok y' ∧ y'.stack = os.map .operator ++ y.stack ∧
      y'.moved = y.moved ++ out ∧ out ++ os.map .operator = form ∧
        ∀ o ∈ os, n ≤ o.precedence

namespace Adds

theorem nil (n : Nat) : Adds n [] [] := by
  intro y _
  exact ⟨y, [], [], rfl, rfl, (List.append_nil _).symm, rfl, by simp⟩

theorem loosen {m n : Nat} {ts form : List Token} (h : Adds n ts form) (hmn : m ≤ n) :
    Adds m ts form := by
  intro y hg
  obtain ⟨y', out, os, hs, hstack, hmoved, hform, hos⟩ := h y (hg.mono hmn)
  exact ⟨y', out, os, hs, hstack, hmoved, hform, fun o ho => Nat.le_trans hmn (hos o ho)⟩

/-- An operand goes to the output, and leaves the stack as it is. -/
theorem operand {n : Nat} {ts form : List Token} (text : String) (h : Adds n ts form) :
    Adds n (.operand text :: ts) (.operand text :: form) := by
  intro y hg
  obtain ⟨y₁, hs₁, hstack₁, hmoved₁⟩ := y.exists_shunt_operand text
  obtain ⟨y₂, out, os, hs₂, hstack₂, hmoved₂, hform, hos⟩ := h y₁ (hstack₁ ▸ hg)
  refine ⟨y₂, .operand text :: out, os, ?_, ?_, ?_, ?_, hos⟩
  · rw [Yard.shuntAll_cons, hs₁]
    exact hs₂
  · rw [hstack₂, hstack₁]
  · rw [hmoved₂, hmoved₁]
    simp
  · rw [← hform]
    rfl

/-- A negation waits below the operators of what follows, and nothing gives way to it. -/
theorem neg {ts form : List Token} (h : Adds 4 ts form) :
    Adds 4 (.operator .neg :: ts) (form ++ [.operator .neg]) := by
  intro y _
  obtain ⟨y₁, hs₁, hstack₁, hmoved₁⟩ := y.exists_shunt_neg
  obtain ⟨y₂, out, os, hs₂, hstack₂, hmoved₂, hform, hos⟩ := h y₁ (guards_four _)
  refine ⟨y₂, out, os ++ [.neg], ?_, ?_, ?_, ?_, ?_⟩
  · rw [Yard.shuntAll_cons, hs₁]
    exact hs₂
  · rw [hstack₂, hstack₁]
    simp
  · rw [hmoved₂, hmoved₁]
  · rw [← hform]
    simp
  · intro o ho
    rcases List.mem_append.1 ho with ho | ho
    · exact hos o ho
    · rw [List.mem_singleton.1 ho]
      decide

/-- A group hides the stack, and leaves nothing on it. -/
theorem group {n : Nat} {gs ts form form' : List Token} (h : Adds 0 gs form)
    (h' : Adds n ts form') :
    Adds n (.leftParen :: gs ++ .rightParen :: ts) (form ++ form') := by
  intro y hg
  obtain ⟨y₁, hs₁, hstack₁, hmoved₁⟩ := y.exists_shunt_leftParen
  obtain ⟨y₂, out₂, os₂, hs₂, hstack₂, hmoved₂, hform, -⟩ := h y₁ (hstack₁ ▸ guards_bracket 0 _)
  rw [hstack₁] at hstack₂
  obtain ⟨y₃, hs₃, hstack₃, hmoved₃⟩ := exists_shunt_group hstack₂
  obtain ⟨y₄, out₄, os₄, hs₄, hstack₄, hmoved₄, hform', hos⟩ := h' y₃ (hstack₃ ▸ hg)
  refine ⟨y₄, form ++ out₄, os₄, ?_, ?_, ?_, ?_, hos⟩
  · rw [List.cons_append, Yard.shuntAll_cons, hs₁]
    change y₁.shuntAll (gs ++ .rightParen :: ts) = _
    rw [Yard.shuntAll_append_of_ok hs₂, Yard.shuntAll_cons, hs₃]
    exact hs₄
  · rw [hstack₄, hstack₃]
  · rw [hmoved₄, hmoved₃, hmoved₂, hmoved₁, ← hform]
    simp
  · rw [← hform', List.append_assoc]

/-- All that waits of the tokens before gives way to the connective, and nothing of what waited
earlier does; then the connective guards the tokens behind it. -/
theorem binary (c : Connective) {ls rs form form' : List Token} (hl : Adds c.precedence ls form)
    (hr : Adds (c.precedence + 1) rs form') :
    Adds c.precedence (ls ++ .operator (.binary c) :: rs)
      (form ++ form' ++ [.operator (.binary c)]) := by
  intro y hg
  obtain ⟨y₁, out₁, os₁, hs₁, hstack₁, hmoved₁, hform, hos₁⟩ := hl y hg
  obtain ⟨y₂, hs₂, hstack₂, hmoved₂⟩ := exists_shunt_binary hstack₁ hos₁ hg
  obtain ⟨y₃, out₃, os₃, hs₃, hstack₃, hmoved₃, hform', hos₃⟩ :=
    hr y₂ (hstack₂ ▸ guards_binary c _)
  refine ⟨y₃, form ++ out₃, os₃ ++ [.binary c], ?_, ?_, ?_, ?_, ?_⟩
  · rw [Yard.shuntAll_append_of_ok hs₁, Yard.shuntAll_cons, hs₂]
    exact hs₃
  · rw [hstack₃, hstack₂]
    simp
  · rw [hmoved₃, hmoved₂, hmoved₁, ← hform]
    simp
  · rw [← hform']
    simp
  · intro o ho
    rcases List.mem_append.1 ho with ho | ho
    · exact Nat.le_of_succ_le (hos₃ o ho)
    · rw [List.mem_singleton.1 ho]
      exact Nat.le_refl _

/-- At the loosest level nothing else is needed: the whole form comes out. -/
theorem convert {ts form : List Token} (h : Adds 0 ts form) : convert ts = .ok form := by
  obtain ⟨y, out, os, hs, hstack, hmoved, hform, -⟩ := h {} (guards_nil 0)
  have hy : y.stack = os.map .operator := by
    rw [hstack]
    exact List.append_nil _
  have hdepth : y.depth = 0 := by
    rw [Yard.depth, hy, List.countP_eq_zero]
    intro e he
    obtain ⟨o, -, rfl⟩ := List.mem_map.1 he
    simp [Pending.isBracket]
  have hstart : ({} : Yard).moved = [] := rfl
  rw [Polish.convert, runOf, Yard.feed_of_ok hs, Yard.outcome_finish hdepth, hy,
    Yard.operators_map_operator, hmoved, hstart, List.nil_append, hform]

end Adds

/-! ### Reading what writes a tree -/

/-- Every derivation **adds the listing** of the tree that it writes. -/
theorem Writes.adds {n : Nat} {ts : List Token} {t : Tree} (h : Writes n ts t) :
    Adds n ts t.listing := by
  induction h with
  | disj _ _ ihl ihr => exact ihl.binary .disj ihr
  | conj _ _ ihl ihr => exact ihl.binary .conj ihr
  | equal _ _ ihl ihr => exact ihl.binary .equal ihr
  | greater _ _ ihl ihr => exact ihl.binary .greater ihr
  | less _ _ ihl ihr => exact ihl.binary .less ihr
  | neg _ ih => exact ih.neg
  | operand text => exact (Adds.nil 4).operand text
  | @group ts t _ ih =>
      have h := ih.group (Adds.nil 4)
      rwa [List.append_nil] at h
  | tighter _ ih => exact ih.loosen (Nat.le_succ _)

/-- **The postfix form of an expression is the listing of its tree**, whatever its operands look
like and however many parentheses it has. -/
theorem convert_of_writes {ts : List Token} {t : Tree} (h : Writes 0 ts t) :
    convert ts = .ok t.listing :=
  h.adds.convert

/-- A negated group whose operands look like no operands, and two comparisons in a row. -/
theorem convert_of_writes_negated_group :
    Writes 0
      [.operator .neg, .leftParen, .operand "(", .operator (.binary .disj), .operand "",
        .rightParen, .operator (.binary .conj), .operand "a", .operator (.binary .less),
        .operand "b", .operator (.binary .greater), .operand "c"]
      (.binary .conj (.neg (.binary .disj (.leaf "(") (.leaf "")))
        (.binary .greater (.binary .less (.leaf "a") (.leaf "b")) (.leaf "c"))) ∧
    convert
      [.operator .neg, .leftParen, .operand "(", .operator (.binary .disj), .operand "",
        .rightParen, .operator (.binary .conj), .operand "a", .operator (.binary .less),
        .operand "b", .operator (.binary .greater), .operand "c"] =
      .ok [.operand "(", .operand "", .operator (.binary .disj), .operator .neg, .operand "a",
        .operand "b", .operator (.binary .less), .operand "c", .operator (.binary .greater),
        .operator (.binary .conj)] := by
  have hgroup : Writes 4
      [.leftParen, .operand "(", .operator (.binary .disj), .operand "", .rightParen]
      (.binary .disj (.leaf "(") (.leaf "")) :=
    .group (.disj ((Writes.operand "(").loosen (by decide))
      ((Writes.operand "").loosen (by decide)))
  have hright : Writes 3 [.operand "a", .operator (.binary .less), .operand "b",
      .operator (.binary .greater), .operand "c"]
      (.binary .greater (.binary .less (.leaf "a") (.leaf "b")) (.leaf "c")) :=
    .greater (.less ((Writes.operand "a").loosen (by decide)) (.operand "b")) (.operand "c")
  have h := Writes.tighter (.conj (hgroup.neg.loosen (by decide)) hright.tighter)
  exact ⟨h, convert_of_writes h⟩

end Polish
