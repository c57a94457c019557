/-
**Which tokens write a tree.**

In infix order a tree is written with its operators between or before their operands, and with
parentheses where they are needed or wanted.  The grammar has five levels.  At each of the levels
0 to 3 stand the connectives of one precedence, which group to the left; at level 4 stand
negations, operands, and whatever is in parentheses.  What can be written at a level can also be
written at every looser one.

Main definitions:

* `Polish.Writes` — `Writes n ts t`: at level `n`, the tokens `ts` write the tree `t`;
* `Polish.Tree.bracketed` — one way to write a tree: every operator with its operands in
  parentheses.

Main results:

* `Polish.Writes.loosen` — what can be written at a level can be written at every looser one;
* `Polish.writes_bracketed` — **every tree can be written**, at every level.
-/

import Polish.Tree

set_option relaxedAutoImplicit false
set_option autoImplicit false

namespace Polish

/-- At level `n` of the grammar, the tokens `ts` write the tree `t`. -/
inductive Writes : (n : Nat) → (ts : List Token) → (t : Tree) → Prop
  | disj {ls rs : List Token} {l r : Tree} : Writes 0 ls l → Writes 1 rs r →
      Writes 0 (ls ++ .operator (.binary .disj) :: rs) (.binary .disj l r)
  | conj {ls rs : List Token} {l r : Tree} : Writes 1 ls l → Writes 2 rs r →
      Writes 1 (ls ++ .operator (.binary .conj) :: rs) (.binary .conj l r)
  | equal {ls rs : List Token} {l r : Tree} : Writes 2 ls l → Writes 3 rs r →
      Writes 2 (ls ++ .operator (.binary .equal) :: rs) (.binary .equal l r)
  | greater {ls rs : List Token} {l r : Tree} : Writes 3 ls l → Writes 4 rs r →
      Writes 3 (ls ++ .operator (.binary .greater) :: rs) (.binary .greater l r)
  | less {ls rs : List Token} {l r : Tree} : Writes 3 ls l → Writes 4 rs r →
      Writes 3 (ls ++ .operator (.binary .less) :: rs) (.binary .less l r)
  | neg {ts : List Token} {t : Tree} : Writes 4 ts t → Writes 4 (.operator .neg :: ts) (.neg t)
  | operand (text : String) : Writes 4 [.operand text] (.leaf text)
  | group {ts : List Token} {t : Tree} : Writes 0 ts t →
      Writes 4 (.leftParen :: ts ++ [.rightParen]) t
  | tighter {n : Nat} {ts : List Token} {t : Tree} : Writes (n + 1) ts t → Writes n ts t

namespace Writes

/-- There is nothing beyond level 4. -/
theorem level_le {n : Nat} {ts : List Token} {t : Tree} (h : Writes n ts t) : n ≤ 4 := by
  induction h with
  | tighter _ ih => omega
  | _ => decide

/-- What can be written at a level can be written at every looser one. -/
theorem loosen {m n : Nat} {ts : List Token} {t : Tree} (h : Writes n ts t) (hmn : m ≤ n) :
    Writes m ts t := by
  obtain ⟨k, rfl⟩ := Nat.exists_eq_add_of_le hmn
  induction k with
  | zero => exact h
  | succ k ih => exact ih h.tighter (Nat.le_add_right m k)

/-- The connectives together: the left operand is written at the level of the connective, the
right operand at the next tighter one. -/
theorem binary {c : Connective} {ls rs : List Token} {l r : Tree}
    (hl : Writes c.precedence ls l) (hr : Writes (c.precedence + 1) rs r) :
    Writes c.precedence (ls ++ .operator (.binary c) :: rs) (.binary c l r) := by
  cases c with
  | disj => exact disj hl hr
  | conj => exact conj hl hr
  | equal => exact equal hl hr
  | greater => exact greater hl hr
  | less => exact less hl hr

end Writes

/-! ### Every tree can be written -/

/-- A tree with parentheses around every operator and its operands. -/
def Tree.bracketed : Tree → List Token
  | .leaf text => [.operand text]
  | .neg t => .leftParen :: (.operator .neg :: t.bracketed) ++ [.rightParen]
  | .binary c l r =>
      .leftParen :: (l.bracketed ++ .operator (.binary c) :: r.bracketed) ++ [.rightParen]

/-- Every tree **can be written**. -/
theorem writes_bracketed (t : Tree) : Writes 4 t.bracketed t := by
  induction t with
  | leaf text => exact Writes.operand text
  | neg t ih => exact Writes.group ((Writes.neg ih).loosen (Nat.zero_le 4))
  | binary c l r ihl ihr =>
      have hc := c.precedence_le
      have hl := ihl.loosen (m := c.precedence) (by omega)
      have hr := ihr.loosen (m := c.precedence + 1) (by omega)
      exact Writes.group ((Writes.binary hl hr).loosen (Nat.zero_le _))

end Polish
