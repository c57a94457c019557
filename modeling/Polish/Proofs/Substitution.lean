/-
**A group is as good as an operand.**

Inside a conversion the tokens of a parenthesised group are read on top of whatever waits on the
stack.  The left parenthesis hides all of that: while the group is read, nothing below is compared
with anything, and with the right parenthesis the stack is what it was before.  In the meantime the
output has grown by the postfix form of the group, in one piece.  An operand does the same with its
text.  So operands may be replaced by groups, or by other operands, and the conversion does with the
images what it would have done with the operands.

Main definitions:

* `Polish.Yard.Framed` — a state whose stack lies on a left parenthesis over the stack of another;
* `Polish.Image` — what an operand may be replaced by: **an operand or a group that can be
  converted**;
* `Polish.substitute` — replacing all operands among some tokens.

Main results:

* `Polish.Yard.Framed.shunt`, `Polish.Yard.Reached.framed` — one step and many steps over a left
  parenthesis never touch what lies below it;
* `Polish.exists_shuntAll_group` — reading a group adds its postfix form and restores the stack;
* `Polish.Mirrors.shunts`, `Polish.Yard.Reached.mirrors` — a run on tokens with their operands
  replaced mirrors the run on the tokens;
* `Polish.convert_substitute` — **replacing operands and converting can change places**.
-/

import Polish.Proofs.Balance

set_option relaxedAutoImplicit false
set_option autoImplicit false

namespace Polish

open Pending (operators)

/-! ### Over a left parenthesis -/

section Lists

variable {α : Type} {p : α → Bool} {b : α}

theorem takeWhile_append_cons (hb : p b = false) (xs ys : List α) :
    (xs ++ b :: ys).takeWhile p = xs.takeWhile p := by
  induction xs with
  | nil => simp [hb]
  | cons x xs ih =>
      rw [List.cons_append, List.takeWhile_cons, List.takeWhile_cons, ih]

theorem dropWhile_append_cons (hb : p b = false) (xs ys : List α) :
    (xs ++ b :: ys).dropWhile p = xs.dropWhile p ++ b :: ys := by
  induction xs with
  | nil => simp [hb]
  | cons x xs ih =>
      rw [List.cons_append, List.dropWhile_cons, List.dropWhile_cons, ih]
      split <;> rfl

end Lists

namespace Yard

/-- The state `z` is the state `y` **put on the state `base`** with a left parenthesis between the two
stacks, and with the output of `base` in front. -/
structure Framed (base y z : Yard) : Prop where
  stack : z.stack = y.stack ++ .bracket :: base.stack
  moved : z.moved = base.moved ++ y.moved

namespace Framed

variable {base y z : Yard}

theorem innermost (h : Framed base y z) : z.innermost = y.innermost := by
  rw [Yard.innermost, h.stack]
  exact takeWhile_append_cons rfl _ _

theorem enclosing (h : Framed base y z) : z.enclosing = y.enclosing ++ .bracket :: base.stack := by
  rw [Yard.enclosing, h.stack]
  exact dropWhile_append_cons rfl _ _

/-- **One step** over a left parenthesis touches nothing below it. -/
theorem shunt {y' : Yard} {t : Token} (h : Framed base y z) (hs : Shunts y t y') :
    ∃ z', z.shunt t = .ok z' ∧ Framed base y' z' := by
  cases hs with
  | operand text =>
      obtain ⟨z', hz, hstack, hmoved⟩ := z.exists_shunt_operand text
      refine ⟨z', hz, hstack.trans h.stack, ?_⟩
      rw [hmoved, h.moved, moved_push, List.append_assoc]
      rfl
  | operator o =>
      obtain ⟨z', hz, hstack, hmoved⟩ := z.exists_shunt_operator o
      refine ⟨z', hz, ?_, ?_⟩
      · rw [hstack, h.stack, dropWhile_append_cons rfl]
        rfl
      · rw [hmoved, h.stack, takeWhile_append_cons rfl, h.moved, moved_append,
          map_token_map (.yielded · o) (fun _ => rfl), List.append_assoc]
  | leftParen =>
      obtain ⟨z', hz, hstack, hmoved⟩ := z.exists_shunt_leftParen
      refine ⟨z', hz, ?_, hmoved.trans h.moved⟩
      rw [hstack, h.stack]
      rfl
  | @rightParen outer he =>
      have hz : z.enclosing = .bracket :: (outer ++ .bracket :: base.stack) := by
        rw [h.enclosing, he]
        rfl
      obtain ⟨z', hz', hstack, hmoved⟩ := exists_shunt_rightParen hz
      refine ⟨z', hz', hstack, ?_⟩
      rw [hmoved, h.innermost, h.moved, moved_append, map_token_map .closed (fun _ => rfl),
        List.append_assoc]

end Framed

/-- What has been read from the start **can be read over a left parenthesis**. -/
theorem Reached.framed {ts : List Token} {y base start : Yard} (h : Reached ts y)
    (hstart : Framed base {} start) : ∃ z, start.shuntAll ts = .ok z ∧ Framed base y z := by
  induction h with
  | start => exact ⟨start, rfl, hstart⟩
  | step _ hs ih =>
      obtain ⟨z, hz, hframed⟩ := ih
      obtain ⟨z', hz', hframed'⟩ := hframed.shunt hs
      exact ⟨z', shuntAll_concat_eq_ok_iff.2 ⟨z, hz, hz'⟩, hframed'⟩

end Yard

open Yard (Shunts Reached Framed)

/-- Reading a group adds **its postfix form** to the output, and leaves the stack as it was. -/
theorem exists_shuntAll_group {g form : List Token} (h : convert g = .ok form) (y : Yard) :
    ∃ y', y.shuntAll (.leftParen :: g ++ [.rightParen]) = .ok y' ∧ y'.stack = y.stack ∧
      y'.moved = y.moved ++ form := by
  obtain ⟨inner, hinner, hdepth, rfl⟩ := exists_reached_of_convert h
  obtain ⟨start, hstart, hstack, hmoved⟩ := y.exists_shunt_leftParen
  obtain ⟨z, hz, hframed⟩ := hinner.framed ⟨hstack, hmoved.trans (List.append_nil _).symm⟩
  have henclosing : z.enclosing = .bracket :: y.stack := by
    rw [hframed.enclosing, (inner.enclosing_eq_nil_iff).2 hdepth, List.nil_append]
  obtain ⟨y', hy', hstack', hmoved'⟩ := Yard.exists_shunt_rightParen henclosing
  refine ⟨y', ?_, hstack', ?_⟩
  · rw [List.cons_append, Yard.shuntAll_cons, hstart]
    exact Yard.shuntAll_concat_eq_ok_iff.2 ⟨z, hz, hy'⟩
  · rw [hmoved', hframed.innermost, Yard.innermost_eq_stack hdepth, hframed.moved,
      List.append_assoc, Yard.held]

/-! ### Replacing operands -/

/-- What an operand may be replaced by. -/
inductive Image where
  /-- Another operand, with any text. -/
  | operand (text : String)
  /-- A group of tokens that can be converted, with its postfix form. -/
  | group (inner form : List Token) (h : convert inner = .ok form)

namespace Image

/-- The tokens that stand for the operand in the input. -/
def tokens : Image → List Token
  | .operand text => [.operand text]
  | .group inner _ _ => .leftParen :: inner ++ [.rightParen]

/-- The tokens that stand for the operand in the output. -/
def form : Image → List Token
  | .operand text => [.operand text]
  | .group _ form _ => form

theorem exists_shuntAll (i : Image) (y : Yard) :
    ∃ y', y.shuntAll i.tokens = .ok y' ∧ y'.stack = y.stack ∧ y'.moved = y.moved ++ i.form := by
  cases i with
  | operand text =>
      obtain ⟨y', hy, hstack, hmoved⟩ := y.exists_shunt_operand text
      exact ⟨y', Yard.shuntAll_singleton hy, hstack, hmoved⟩
  | group inner form h => exact exists_shuntAll_group h y

end Image

/-- A token with an operand replaced by its image. -/
def Token.replace (f : String → List Token) : Token → List Token
  | .operand text => f text
  | t => [t]

/-- The tokens `ts` with **every operand replaced** by its image, and all else as it is. -/
def substitute (f : String → List Token) (ts : List Token) : List Token := ts.flatMap (·.replace f)

theorem substitute_append (f : String → List Token) (ts us : List Token) :
    substitute f (ts ++ us) = substitute f ts ++ substitute f us :=
  List.flatMap_append

theorem substitute_singleton (f : String → List Token) (t : Token) :
    substitute f [t] = t.replace f :=
  List.flatMap_singleton _ t

theorem substitute_operators (f : String → List Token) (os : List Operator) :
    substitute f (os.map .operator) = os.map .operator := by
  induction os with
  | nil => rfl
  | cons o os ih => exact congrArg (Token.operator o :: ·) ih

/-! ### Two runs -/

/-- The state `z` **mirrors** the state `y`: it has the same stack, and the output with its operands
replaced. -/
structure Mirrors (f : String → Image) (y z : Yard) : Prop where
  stack : z.stack = y.stack
  moved : z.moved = substitute (fun text => (f text).form) y.moved

namespace Mirrors

variable {f : String → Image} {y z : Yard}

/-- An operator or a parenthesis does the same to both; in the place of an operand its image is
read. -/
theorem shunts {y' : Yard} {t : Token} (h : Mirrors f y z) (hs : Shunts y t y') :
    ∃ z', z.shuntAll (t.replace fun text => (f text).tokens) = .ok z' ∧ Mirrors f y' z' := by
  cases hs with
  | operand text =>
      obtain ⟨z', hz, hstack, hmoved⟩ := (f text).exists_shuntAll z
      refine ⟨z', hz, hstack.trans h.stack, ?_⟩
      rw [hmoved, h.moved, Yard.moved_push, substitute_append, Move.token, substitute_singleton]
      rfl
  | operator o =>
      obtain ⟨z', hz, hstack, hmoved⟩ := z.exists_shunt_operator o
      refine ⟨z', Yard.shuntAll_singleton hz, ?_, ?_⟩
      · rw [hstack, h.stack]
      · rw [hmoved, h.stack, h.moved, Yard.moved_append,
          Yard.map_token_map (.yielded · o) (fun _ => rfl), substitute_append, substitute_operators]
  | leftParen =>
      obtain ⟨z', hz, hstack, hmoved⟩ := z.exists_shunt_leftParen
      refine ⟨z', Yard.shuntAll_singleton hz, ?_, hmoved.trans h.moved⟩
      rw [hstack, h.stack]
  | @rightParen outer he =>
      have hinnermost : z.innermost = y.innermost := by
        rw [Yard.innermost, h.stack, Yard.innermost]
      have henclosing : z.enclosing = .bracket :: outer := by
        rw [Yard.enclosing, h.stack, ← he, Yard.enclosing]
      obtain ⟨z', hz, hstack, hmoved⟩ := Yard.exists_shunt_rightParen henclosing
      refine ⟨z', Yard.shuntAll_singleton hz, hstack, ?_⟩
      rw [hmoved, hinnermost, h.moved, Yard.moved_append, Yard.map_token_map .closed (fun _ => rfl),
        substitute_append, substitute_operators]

theorem depth (h : Mirrors f y z) : z.depth = y.depth := by
  rw [Yard.depth, h.stack, Yard.depth]

end Mirrors

/-- A run on tokens with their operands replaced **mirrors the run on the tokens**. -/
theorem Yard.Reached.mirrors {f : String → Image} {ts : List Token} {y : Yard} (h : Reached ts y) :
    ∃ z, Reached (substitute (fun text => (f text).tokens) ts) z ∧ Mirrors f y z := by
  induction h with
  | start => exact ⟨{}, Reached.start, rfl, rfl⟩
  | step _ hs ih =>
      obtain ⟨z, hz, hmirrors⟩ := ih
      obtain ⟨z', hz', hmirrors'⟩ := hmirrors.shunts hs
      refine ⟨z', Yard.reached_iff_shuntAll.2 ?_, hmirrors'⟩
      rw [substitute_append, substitute_singleton,
        Yard.shuntAll_append_of_ok (Yard.reached_iff_shuntAll.1 hz), hz']

/-- **Replacing operands and converting can change places**, for any tokens: if they have a postfix
form, then the operands in it are replaced, each by its new text or by the postfix form of its
group; if they have none, the failure is the same. -/
theorem convert_substitute (f : String → Image) (ts : List Token) :
    convert (substitute (fun text => (f text).tokens) ts) =
      (convert ts).map (substitute fun text => (f text).form) := by
  by_cases h : Opened ts
  · obtain ⟨y, hy⟩ := Yard.exists_reached_iff.2 h
    obtain ⟨z, hz, hmirrors⟩ := hy.mirrors
    by_cases hdepth : y.depth = 0
    · rw [convert_of_reached hz (hmirrors.depth.trans hdepth), convert_of_reached hy hdepth,
        hmirrors.stack, hmirrors.moved, Except.map, substitute_append, substitute_operators]
    · have hdepth' : z.depth ≠ 0 := by rwa [hmirrors.depth]
      rw [convert_of_reached_of_depth_ne hz hdepth', convert_of_reached_of_depth_ne hy hdepth]
      rfl
  · -- the same right parenthesis lacks a partner in both
    obtain ⟨n, hn⟩ := exists_isBreach_iff.2 h
    obtain ⟨pre, post, rfl, hpre, -⟩ := isBreach_iff.1 hn
    obtain ⟨y, hy, hdepth⟩ := hpre.exists_reached
    obtain ⟨z, hz, hmirrors⟩ := hy.mirrors
    have hreplaced : substitute (fun text => (f text).tokens) (pre ++ .rightParen :: post) =
        substitute (fun text => (f text).tokens) pre ++
          .rightParen :: substitute (fun text => (f text).tokens) post :=
      substitute_append _ _ _
    rw [hreplaced, convert, convert, (runOf_rightParen_of_reached hy hdepth).2,
      (runOf_rightParen_of_reached hz (hmirrors.depth.trans hdepth)).2]
    rfl

/-- A group in the place of one operand, and the text of a parenthesis in the place of another. -/
example :
    let f : String → Image := fun text =>
      if text = "x" then .group [.operand "a", .operator (.binary .disj), .operand "b"]
        [.operand "a", .operand "b", .operator (.binary .disj)] rfl
      else .operand ")"
    convert (substitute (fun text => (f text).tokens)
        [.operator .neg, .operand "x", .operator (.binary .conj), .operand "y"]) =
      .ok [.operand "a", .operand "b", .operator (.binary .disj), .operator .neg, .operand ")",
        .operator (.binary .conj)] := by
  rfl

end Polish
