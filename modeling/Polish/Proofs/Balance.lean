/-
**Parentheses alone decide how a conversion ends.**

The stack of a conversion mixes operators and left parentheses, and nothing counts them apart.
Still the number of left parentheses on it is always what the tokens read so far have opened and
not closed: popping operators neither crosses a left parenthesis nor loses one.  So a conversion
fails exactly where the balance of the parentheses fails, whatever stands around them.

Main definitions:

* `Polish.Opened` — no beginning has more right parentheses than left ones;
* `Polish.IsBreach`, `Polish.breach?` — the least number of tokens with more right parentheses than
  left ones.

Main results:

* `Polish.Yard.Reached.depth` — **the stack holds as many left parentheses as are open**;
* `Polish.Yard.exists_reached_iff` — tokens are read to their end exactly if what they close has
  been opened;
* `Polish.isBreach_iff` — the first breach is a right parenthesis after matched tokens;
* `Polish.Matched.exists_group` — matched tokens that begin with a left parenthesis begin with its
  group;
* `Polish.convert_of_reached`, `Polish.convert_of_reached_of_depth_ne` — what becomes of a conversion
  when its input ends in a state;
* `Polish.exists_reached_of_convert`, `Polish.perm_of_convert` — what a conversion gives, and that
  this has the operands and operators of its input;
* `Polish.pull_of_isBreach_take`, `Polish.pull_of_opened_take` — what a conversion leaves of a
  source;
* `Polish.read_of_isBreach`, `Polish.read_of_opened` — how many tokens a run counts;
* `Polish.convert_by_excess` — **how a conversion ends**, and how much of its source it reads.
-/

import Polish.Proofs.Reading
import Mathlib.Data.Nat.Find

set_option relaxedAutoImplicit false
set_option autoImplicit false

namespace Polish

/-! ### Beginnings of a list of tokens -/

/-- What is closed has been opened: no beginning has more right parentheses than left ones. -/
def Opened (ts : List Token) : Prop := ∀ k ≤ ts.length, excess (ts.take k) ≤ 0

theorem matched_iff {ts : List Token} : Matched ts ↔ Opened ts ∧ excess ts = 0 := Iff.rfl

theorem opened_nil : Opened [] := by
  intro k _
  simp

theorem excess_concat (ts : List Token) (t : Token) : excess (ts ++ [t]) = excess ts + t.weight := by
  rw [excess_append, excess_cons, excess_nil]
  omega

theorem Opened.excess_le {ts : List Token} (h : Opened ts) : excess ts ≤ 0 := by
  have h' := h ts.length (Nat.le_refl _)
  rwa [List.take_length] at h'

theorem opened_concat_iff {ts : List Token} {t : Token} :
    Opened (ts ++ [t]) ↔ Opened ts ∧ excess ts + t.weight ≤ 0 := by
  constructor
  · intro h
    constructor
    · intro k hk
      have hk' := h k (by simp; omega)
      rwa [List.take_append_of_le_length hk] at hk'
    · rw [← excess_concat]
      exact h.excess_le
  · rintro ⟨h, ht⟩ k hk
    rcases Nat.lt_or_ge ts.length k with hlt | hle
    · rw [List.take_of_length_le (by simp; omega), excess_concat]
      exact ht
    · rw [List.take_append_of_le_length hle]
      exact h k hle

theorem take_succ_append_cons (ts us : List Token) (t : Token) :
    (ts ++ t :: us).take (ts.length + 1) = ts ++ [t] := by
  rw [List.append_cons]
  exact List.take_left' (by simp)

/-- Behind tokens without excess, the beginnings count as if nothing stood before them. -/
theorem opened_append_iff {ts us : List Token} (hz : excess ts = 0) :
    Opened (ts ++ us) ↔ Opened ts ∧ Opened us := by
  constructor
  · intro h
    constructor
    · intro k hk
      have hk' := h k (by simp; omega)
      rwa [List.take_append_of_le_length hk] at hk'
    · intro k hk
      have hk' := h (ts.length + k) (by simp; omega)
      rw [List.take_length_add_append, excess_append] at hk'
      omega
  · rintro ⟨h, h'⟩ k hk
    rcases Nat.le_total k ts.length with hle | hle
    · rw [List.take_append_of_le_length hle]
      exact h k hle
    · obtain ⟨j, rfl⟩ := Nat.exists_eq_add_of_le hle
      rw [List.length_append] at hk
      have hj := h' j (by omega)
      rw [List.take_length_add_append, excess_append]
      omega

theorem matched_append_iff {ts us : List Token} (hz : excess ts = 0) :
    Matched (ts ++ us) ↔ Matched ts ∧ Matched us := by
  rw [matched_iff, matched_iff, matched_iff, opened_append_iff hz, excess_append, hz, Int.zero_add]
  exact ⟨fun ⟨⟨h, h'⟩, hz'⟩ => ⟨⟨h, rfl⟩, h', hz'⟩, fun ⟨⟨h, _⟩, h', hz'⟩ => ⟨⟨h, h'⟩, hz'⟩⟩

/-- A first token that is no parenthesis may be taken away. -/
theorem Matched.tail {t : Token} {ts : List Token} (h : Matched (t :: ts)) (ht : t.weight = 0) :
    Matched ts := by
  have hz : excess [t] = 0 := by
    rw [excess_cons, ht]
    rfl
  exact ((matched_append_iff hz).1 h).2

/-- The tokens up to position `n` are the first with more right parentheses than left ones. -/
structure IsBreach (ts : List Token) (n : Nat) : Prop where
  le_length : n ≤ ts.length
  pos : 0 < excess (ts.take n)
  least : ∀ k < n, excess (ts.take k) ≤ 0

/-- Tokens fail to open what they close exactly if there is a first breach. -/
theorem exists_isBreach_iff {ts : List Token} : (∃ n, IsBreach ts n) ↔ ¬ Opened ts := by
  constructor
  · rintro ⟨n, hn⟩ h
    exact absurd (h n hn.le_length) (by have := hn.pos; omega)
  · intro h
    have hex : ∃ k, k ≤ ts.length ∧ 0 < excess (ts.take k) := by
      simp only [Opened, not_forall] at h
      obtain ⟨k, hk, hpos⟩ := h
      exact ⟨k, hk, by omega⟩
    obtain ⟨hle, hpos⟩ := Nat.find_spec hex
    refine ⟨Nat.find hex, hle, hpos, ?_⟩
    intro k hk
    have hmin : ¬ (k ≤ ts.length ∧ 0 < excess (ts.take k)) := Nat.find_min hex hk
    omega

/-- The number of tokens up to the first right parenthesis that has no partner, itself included. -/
def breach? (ts : List Token) : Option Nat :=
  (List.range (ts.length + 1)).find? fun n => 0 < excess (ts.take n)

theorem breach?_eq_some_iff {ts : List Token} {n : Nat} : breach? ts = some n ↔ IsBreach ts n := by
  rw [breach?, List.find?_range_eq_some]
  simp only [decide_eq_true_eq, List.mem_range, Nat.lt_succ_iff, Bool.not_eq_true',
    decide_eq_false_iff_not, Int.not_lt]
  exact ⟨fun ⟨hpos, hle, hleast⟩ => ⟨hle, hpos, hleast⟩,
    fun ⟨hle, hpos, hleast⟩ => ⟨hpos, hle, hleast⟩⟩

/-- The token of a **first breach** is a right parenthesis, and before it the tokens match. -/
theorem isBreach_iff {ts : List Token} {n : Nat} :
    IsBreach ts n ↔
      ∃ pre post, ts = pre ++ .rightParen :: post ∧ Matched pre ∧ n = pre.length + 1 := by
  constructor
  · rintro ⟨hle, hpos, hleast⟩
    cases n with
    | zero => simp at hpos
    | succ m =>
        have hm : m < ts.length := hle
        have hzero := hleast m (Nat.lt_succ_self m)
        rw [List.take_succ_eq_append_getElem hm, excess_concat] at hpos
        have htoken : ts[m] = .rightParen := by
          cases ht : ts[m] with
          | rightParen => rfl
          | _ => rw [ht] at hpos; simp only [Token.weight] at hpos; omega
        rw [htoken] at hpos
        simp only [Token.weight] at hpos
        refine ⟨ts.take m, ts.drop (m + 1), ?_, ⟨?_, by omega⟩, by simp; omega⟩
        · rw [← htoken, ← List.drop_eq_getElem_cons hm, List.take_append_drop]
        · intro k hk
          rw [List.length_take] at hk
          rw [List.take_take, Nat.min_eq_left (by omega)]
          exact hleast k (by omega)
  · rintro ⟨pre, post, rfl, ⟨hopen, hzero⟩, rfl⟩
    refine ⟨by simp, ?_, ?_⟩
    · rw [take_succ_append_cons, excess_concat, hzero]
      decide
    · intro k hk
      rw [List.take_append_of_le_length (by omega)]
      exact hopen k (by omega)

/-- A group has no excess. -/
theorem excess_group {gs : List Token} (h : Matched gs) :
    excess (.leftParen :: gs ++ [.rightParen]) = 0 := by
  rw [excess_concat, excess_cons, h.2]
  rfl

/-- Matched tokens do not begin with a right parenthesis. -/
theorem not_matched_rightParen (ts : List Token) : ¬ Matched (.rightParen :: ts) := by
  intro h
  have hle := h.1 1 (by simp)
  rw [List.take_succ_cons, List.take_zero, excess_cons] at hle
  exact absurd hle (by decide)

/-- Behind a left parenthesis stand its group, its partner, and matched tokens. -/
theorem Matched.exists_group {ts : List Token} (h : Matched (.leftParen :: ts)) :
    ∃ gs us, ts = gs ++ .rightParen :: us ∧ Matched gs ∧ Matched us := by
  have hexcess : excess ts = 1 := by
    have hz := h.2
    rw [excess_cons, Token.weight] at hz
    omega
  have hopen : ¬ Opened ts := fun hts => by
    have hle := hts.excess_le
    omega
  obtain ⟨n, hn⟩ := exists_isBreach_iff.2 hopen
  obtain ⟨gs, us, rfl, hgs, -⟩ := isBreach_iff.1 hn
  refine ⟨gs, us, rfl, hgs, ?_⟩
  rw [List.append_cons, ← List.cons_append] at h
  exact ((matched_append_iff (excess_group hgs)).1 h).2

/-! ### Where a run gets to -/

namespace Yard

/-- The stack holds **as many left parentheses as are open**. -/
theorem Reached.depth {ts : List Token} {y : Yard} (h : Reached ts y) :
    (y.depth : Int) = - excess ts := by
  induction h with
  | start => rfl
  | step _ hs ih =>
      rw [excess_concat]
      have hd := hs.depth
      omega

theorem Reached.opened {ts : List Token} {y : Yard} (h : Reached ts y) : Opened ts := by
  induction h with
  | start => exact opened_nil
  | step hr hs ih =>
      refine opened_concat_iff.2 ⟨ih, ?_⟩
      have hd := hs.depth
      have hr' := hr.depth
      omega

/-- Tokens are read to their end exactly if what they close has been opened. -/
theorem exists_reached_iff {ts : List Token} : (∃ y, Reached ts y) ↔ Opened ts := by
  constructor
  · rintro ⟨y, h⟩
    exact h.opened
  · intro h
    induction ts using List.reverseRecOn with
    | nil => exact ⟨{}, Reached.start⟩
    | append_singleton ts t ih =>
        obtain ⟨hts, ht⟩ := opened_concat_iff.1 h
        obtain ⟨y, hy⟩ := ih hts
        cases hs : y.shunt t with
        | ok y' => exact ⟨y', hy.step (shunt_eq_ok_iff.1 hs)⟩
        | error r =>
            obtain ⟨rfl, hdepth, -⟩ := shunt_eq_error_iff.1 hs
            have hd := hy.depth
            simp only [Token.weight] at ht
            omega

/-- The end of the input is a fault if a left parenthesis is left. -/
theorem fault_finish (y : Yard) :
    y.finish.fault = if y.depth = 0 then none else some .unclosed := by
  have hany : y.stack.any Pending.isBracket = true ↔ y.depth ≠ 0 := by
    rw [depth, ← Nat.pos_iff_ne_zero, List.countP_pos_iff, List.any_eq_true]
  unfold finish
  split
  · next h => rw [if_neg (hany.1 h)]
  · next h => rw [if_pos (by_contra fun hd => h (hany.2 hd))]

theorem read_finish (y : Yard) : y.finish.read = y.read := by
  unfold finish
  split <;> rfl

end Yard

open Yard (Reached)

theorem runOf_of_reached {ts : List Token} {y : Yard} (h : Reached ts y) : runOf ts = y.finish :=
  Yard.feed_of_ok (Yard.reached_iff_shuntAll.1 h)

/-- Matched tokens are read to their end, and leave no left parenthesis on the stack. -/
theorem Matched.exists_reached {ts : List Token} (h : Matched ts) :
    ∃ y, Reached ts y ∧ y.depth = 0 := by
  obtain ⟨y, hy⟩ := Yard.exists_reached_iff.2 h.1
  have hd := hy.depth
  have hz := h.2
  exact ⟨y, hy, by omega⟩

/-- What waits when matched tokens have been read follows the output, from the top down. -/
theorem convert_of_reached {ts : List Token} {y : Yard} (h : Reached ts y) (hdepth : y.depth = 0) :
    convert ts = .ok (y.moved ++ (Pending.operators y.stack).map .operator) := by
  rw [convert, runOf_of_reached h, Yard.outcome_finish hdepth]

/-- A left parenthesis that is still on the stack at the end is a fault. -/
theorem convert_of_reached_of_depth_ne {ts : List Token} {y : Yard} (h : Reached ts y)
    (hdepth : y.depth ≠ 0) : convert ts = .error .unclosed := by
  rw [convert, runOf_of_reached h, Run.outcome, Yard.fault_finish, if_neg hdepth]

/-- A right parenthesis ends the run if no left one is on the stack, and nothing behind it counts. -/
theorem runOf_rightParen_of_reached {pre : List Token} {y : Yard} (h : Reached pre y)
    (hdepth : y.depth = 0) :
    y.shunt .rightParen = .error y.broken ∧
      ∀ post, runOf (pre ++ .rightParen :: post) = y.broken := by
  have hs : y.shunt .rightParen = .error y.broken := Yard.shunt_eq_error_iff.2 ⟨rfl, hdepth, rfl⟩
  exact ⟨hs, Yard.feed_append_of_error (Yard.reached_iff_shuntAll.1 h) hs⟩

/-- A right parenthesis after matched tokens ends the run, and nothing behind it counts. -/
theorem runOf_of_matched_rightParen {pre : List Token} (h : Matched pre) :
    ∃ y, Reached pre y ∧ y.shunt .rightParen = .error y.broken ∧
      ∀ post, runOf (pre ++ .rightParen :: post) = y.broken := by
  obtain ⟨y, hy, hdepth⟩ := h.exists_reached
  exact ⟨y, hy, runOf_rightParen_of_reached hy hdepth⟩

/-- The number of tokens that a run counts is the number of those up to the first breach. -/
theorem read_of_isBreach {ts : List Token} {n : Nat} (h : IsBreach ts n) : (runOf ts).read = n := by
  obtain ⟨pre, post, rfl, hpre, rfl⟩ := isBreach_iff.1 h
  obtain ⟨y, hy, -, hrun⟩ := runOf_of_matched_rightParen hpre
  rw [hrun post, ← hy.read]
  rfl

/-- Without a breach, all tokens are counted. -/
theorem read_of_opened {ts : List Token} (h : Opened ts) : (runOf ts).read = ts.length := by
  obtain ⟨y, hy⟩ := Yard.exists_reached_iff.2 h
  rw [runOf_of_reached hy, Yard.read_finish, hy.read]

theorem fault_of_not_opened {ts : List Token} (h : ¬ Opened ts) :
    (runOf ts).fault = some .unopened := by
  obtain ⟨n, hn⟩ := exists_isBreach_iff.2 h
  obtain ⟨pre, post, rfl, hpre, -⟩ := isBreach_iff.1 hn
  obtain ⟨y, -, -, hrun⟩ := runOf_of_matched_rightParen hpre
  rw [hrun post]
  rfl

theorem opened_of_fault_ne {ts : List Token} (h : (runOf ts).fault ≠ some .unopened) :
    Opened ts := by
  by_contra hno
  exact h (fault_of_not_opened hno)

theorem fault_of_opened {ts : List Token} (h : Opened ts) :
    (runOf ts).fault = if excess ts = 0 then none else some .unclosed := by
  obtain ⟨y, hy⟩ := Yard.exists_reached_iff.2 h
  have hd := hy.depth
  rw [runOf_of_reached hy, Yard.fault_finish]
  by_cases hz : excess ts = 0
  · rw [if_pos hz, if_pos (by omega)]
  · rw [if_neg hz, if_neg (by omega)]

/-! ### How a conversion ends -/

theorem Run.outcome_eq_error_iff {r : Run} {m : Mismatch} :
    r.outcome = .error m ↔ r.fault = some m := by
  unfold outcome
  cases r.fault <;> simp

theorem Run.exists_outcome_eq_ok_iff {r : Run} : (∃ out, r.outcome = .ok out) ↔ r.fault = none := by
  unfold outcome
  cases r.fault <;> simp

theorem convert_eq_unopened_iff {ts : List Token} :
    convert ts = .error .unopened ↔ ¬ Opened ts := by
  rw [convert, Run.outcome_eq_error_iff]
  constructor
  · intro hf h
    rw [fault_of_opened h] at hf
    split at hf <;> simp at hf
  · exact fault_of_not_opened

theorem convert_eq_unclosed_iff {ts : List Token} :
    convert ts = .error .unclosed ↔ Opened ts ∧ excess ts < 0 := by
  rw [convert, Run.outcome_eq_error_iff]
  constructor
  · intro hf
    have h : Opened ts := opened_of_fault_ne (by simp [hf])
    rw [fault_of_opened h] at hf
    have hz : excess ts ≠ 0 := by
      intro hz
      simp [hz] at hf
    have hle := h.excess_le
    exact ⟨h, by omega⟩
  · rintro ⟨h, hlt⟩
    rw [fault_of_opened h, if_neg (by omega)]

theorem exists_convert_eq_ok_iff {ts : List Token} :
    (∃ out, convert ts = .ok out) ↔ Matched ts := by
  rw [convert, Run.exists_outcome_eq_ok_iff, matched_iff]
  constructor
  · intro hf
    have h : Opened ts := opened_of_fault_ne (by simp [hf])
    rw [fault_of_opened h] at hf
    refine ⟨h, ?_⟩
    by_contra hz
    simp [hz] at hf
  · rintro ⟨h, hz⟩
    rw [fault_of_opened h, if_pos hz]

/-- What a conversion gives is what its last state holds. -/
theorem exists_reached_of_convert {ts out : List Token} (h : convert ts = .ok out) :
    ∃ y, Reached ts y ∧ y.depth = 0 ∧ y.held = out := by
  obtain ⟨y, hy, hdepth⟩ := (exists_convert_eq_ok_iff.1 ⟨out, h⟩).exists_reached
  exact ⟨y, hy, hdepth, Except.ok.inj ((convert_of_reached hy hdepth).symm.trans h)⟩

/-- The output has **the operands and operators of the input**, each as often. -/
theorem perm_of_convert {ts out : List Token} (h : convert ts = .ok out) :
    out.Perm (ts.filter (!·.isParen)) := by
  obtain ⟨y, hy, -, rfl⟩ := exists_reached_of_convert h
  exact hy.held_perm

/-- The output is shorter than the input by the parentheses. -/
theorem length_of_convert {ts out : List Token} (h : convert ts = .ok out) :
    out.length + ts.countP (·.isParen) = ts.length := by
  have hsplit := (List.filter_append_perm (·.isParen) ts).length_eq
  rw [List.length_append, ← (perm_of_convert h).length_eq, ← List.countP_eq_length_filter] at hsplit
  omega

/-- Nothing is in the output that is not in the input. -/
theorem mem_of_convert {ts out : List Token} (h : convert ts = .ok out) {t : Token} (ht : t ∈ out) :
    t ∈ ts :=
  (List.mem_filter.1 ((perm_of_convert h).mem_iff.1 ht)).1

/-- What is left of a source when a right parenthesis within the limit has no partner: all that lies
behind it. -/
theorem pull_of_isBreach_take {σ : Type} [Source σ] {s : σ} {n limit : Nat}
    (h : IsBreach (Source.take limit s).1 n) :
    ({} : Yard).pull limit s = (runOf (Source.take limit s).1, Source.skip n s) := by
  obtain ⟨pre, post, hts, hpre, rfl⟩ := isBreach_iff.1 h
  obtain ⟨y, hy, hs, hrun⟩ := runOf_of_matched_rightParen hpre
  rw [hts, hrun post]
  exact Yard.pull_of_error hts (Yard.reached_iff_shuntAll.1 hy) hs

/-- Otherwise the source is read up to the limit. -/
theorem pull_of_opened_take {σ : Type} [Source σ] {s : σ} {limit : Nat}
    (h : Opened (Source.take limit s).1) :
    ({} : Yard).pull limit s = (runOf (Source.take limit s).1, (Source.take limit s).2) := by
  obtain ⟨y, hy⟩ := Yard.exists_reached_iff.2 h
  rw [Yard.pull_of_ok (Yard.reached_iff_shuntAll.1 hy), runOf_of_reached hy]

/-- Without a limit, a source is left behind the right parenthesis that has no partner. -/
theorem pull_of_isBreach {σ : Type} [Source σ] {s : σ} {n limit : Nat}
    (h : IsBreach (Source.tokens s) n) (hlimit : Source.size s < limit) :
    ({} : Yard).pull limit s = (runOf (Source.tokens s), Source.skip n s) := by
  rw [← Source.take_fst_eq_tokens hlimit] at h ⊢
  exact pull_of_isBreach_take h

/-- Otherwise the source is read to its end. -/
theorem pull_of_opened {σ : Type} [Source σ] {s : σ} {limit : Nat}
    (h : Opened (Source.tokens s)) (hlimit : Source.size s < limit) :
    ({} : Yard).pull limit s = (runOf (Source.tokens s), (Source.rest s).2) := by
  rw [← Source.take_fst_eq_tokens hlimit] at h ⊢
  rw [pull_of_opened_take h, Source.take_eq_rest hlimit]

/-- A run that breaks is the same whatever comes behind the breach. -/
theorem runOf_take_append_of_isBreach {ts : List Token} {n : Nat} (h : IsBreach ts n)
    (us : List Token) : runOf (ts.take n ++ us) = runOf ts := by
  obtain ⟨pre, post, rfl, hpre, rfl⟩ := isBreach_iff.1 h
  obtain ⟨y, -, -, hrun⟩ := runOf_of_matched_rightParen hpre
  rw [take_succ_append_cons, hrun post, ← List.append_cons, hrun us]

/-- **How a conversion ends** is decided by the excess of the beginnings of its input.  It breaks
with the first right parenthesis that has no partner, fails at the end if a left one is left, and
succeeds otherwise.  From a source, a conversion that breaks takes the tokens up to the breach, and
then what follows them does not matter; every other conversion takes all. -/
theorem convert_by_excess (ts : List Token) :
    (convert ts = .error .unopened ↔ ∃ k ≤ ts.length, 0 < excess (ts.take k)) ∧
    (convert ts = .error .unclosed ↔
      (∀ k ≤ ts.length, excess (ts.take k) ≤ 0) ∧ excess (ts.take ts.length) < 0) ∧
    ((∃ out, convert ts = .ok out) ↔
      ¬ (∃ k ≤ ts.length, 0 < excess (ts.take k)) ∧ ¬ excess (ts.take ts.length) < 0) ∧
    (convert ts = .error .unopened →
      ∃ n, IsBreach ts n ∧ (∀ us, runOf (ts.take n ++ us) = runOf ts) ∧
        ∀ {σ : Type} [Source σ] (s : σ), Source.tokens s = ts →
          ∀ limit, Source.size s < limit →
            ({} : Yard).pull limit s = (runOf ts, Source.skip n s)) ∧
    (convert ts ≠ .error .unopened →
      ∀ {σ : Type} [Source σ] (s : σ), Source.tokens s = ts →
        ∀ limit, Source.size s < limit →
          ({} : Yard).pull limit s = (runOf ts, (Source.rest s).2)) := by
  have hopen : ¬ (∃ k ≤ ts.length, 0 < excess (ts.take k)) ↔ Opened ts := by
    simp only [Opened, not_exists, not_and]
    exact forall₂_congr fun k _ => Int.not_lt
  rw [List.take_length]
  refine ⟨?_, convert_eq_unclosed_iff, ?_, ?_, ?_⟩
  · rw [convert_eq_unopened_iff, ← hopen, not_not]
  · rw [exists_convert_eq_ok_iff, matched_iff, hopen]
    refine and_congr_right fun h => ?_
    have hle := h.excess_le
    omega
  · intro hc
    obtain ⟨n, hn⟩ := exists_isBreach_iff.2 (convert_eq_unopened_iff.1 hc)
    refine ⟨n, hn, runOf_take_append_of_isBreach hn, ?_⟩
    intro σ _ s hs limit hlimit
    subst hs
    exact pull_of_isBreach hn hlimit
  · intro hc σ _ s hs limit hlimit
    have h : Opened ts := by
      by_contra h
      exact hc (convert_eq_unopened_iff.2 h)
    subst hs
    exact pull_of_opened h hlimit

/-- From a list, a conversion that breaks leaves what lies behind the breach. -/
theorem convert_by_excess_unopened :
    let tokens := [Token.leftParen, .rightParen, .operator .neg, .rightParen, .leftParen]
    convert tokens = .error .unopened ∧
      ∃ n, IsBreach tokens n ∧
        ({} : Yard).pull 6 tokens = (runOf tokens, Source.skip n tokens) := by
  intro tokens
  obtain ⟨hbreak, -, -, hpull, -⟩ := convert_by_excess tokens
  have hunopened := hbreak.2 ⟨4, by decide, by decide⟩
  obtain ⟨n, hn, -, hs⟩ := hpull hunopened
  exact ⟨hunopened, n, hn, hs _ (Source.tokens_list _) 6 (by decide)⟩

end Polish
