/-
**When a token is emitted.**

Every token of the output can be given a time: the position of the input token that sends it there.
For an operand that is its own position.  An operator has to wait for the first token of its own
group that it has to precede, which is a connective that does not bind tighter or the right
parenthesis of the group; if there is none, it waits for the end of the input.  This module states
the law on positions alone, with no stack in it, and follows the two lists that the law leads to
from one position to the next: what has been emitted, and what still waits.

Main definitions:

* `Polish.openAt`, `Polish.group` — the left parentheses that are open at a position, and the
  innermost of them;
* `Polish.releases`, `Polish.emission` — **the law**: which token releases an operator, and the time
  at which a token is emitted;
* `Polish.emissionOrder` — the positions of operands and operators by increasing time, and for one
  time by decreasing position;
* `Polish.Emitted` — what has been emitted and what waits when some tokens have been read.

Main results:

* `Polish.emission_lt_iff` — an operator is emitted before some time exactly if it is released;
* `Polish.Emitted.advance` — **one more token**: the operators that it releases are emitted, the
  latest first;
* `Polish.pairwise_before_emissionOrder`, `Polish.eq_emissionOrder` — the order of emission follows
  the law, and it is the only one that does.
-/

import Polish.Nesting
import Mathlib.Data.List.Basic

set_option relaxedAutoImplicit false
set_option autoImplicit false

namespace Polish

/-! ### Groups -/

/-- The positions of the left parentheses among the first `k` tokens that are still open after
them, the innermost first. -/
def openAt (ts : List Token) : Nat → List Nat
  | 0 => []
  | k + 1 =>
    match ts[k]? with
    | some .leftParen => k :: openAt ts k
    | some .rightParen => (openAt ts k).tail
    | _ => openAt ts k

theorem lt_of_mem_openAt {ts : List Token} {j k : Nat} (h : j ∈ openAt ts k) : j < k := by
  induction k with
  | zero => simp [openAt] at h
  | succ k ih =>
      rw [openAt] at h
      split at h
      · rcases List.mem_cons.1 h with rfl | h
        · exact Nat.lt_succ_self j
        · exact Nat.lt_succ_of_lt (ih h)
      · exact Nat.lt_succ_of_lt (ih (List.mem_of_mem_tail h))
      · exact Nat.lt_succ_of_lt (ih h)

/-- The innermost group in which the token at position `i` stands, named by the position of its
left parenthesis.  Outside of all parentheses there is none. -/
def group (ts : List Token) (i : Nat) : Option Nat := (openAt ts i).head?

/-! ### The law -/

/-- Whether the token at position `j` releases the operator at position `i`: it comes later in the
same group, and it is a connective that does not bind tighter, or the end of the group. -/
def releases (ts : List Token) (i j : Nat) : Bool :=
  i < j && group ts i == group ts j &&
    match ts[i]?, ts[j]? with
    | some (.operator o), some (.operator (.binary c)) => c.precedence ≤ o.precedence
    | some (.operator _), some .rightParen => true
    | _, _ => false

/-- The time at which the token at position `i` is emitted: for an operator the least position that
releases it, or else the length of the input; for any other token its own position. -/
def emission (ts : List Token) (i : Nat) : Nat :=
  match ts[i]? with
  | some (.operator _) => ((List.range ts.length).find? (releases ts i)).getD ts.length
  | _ => i

/-- Whether there is an operand or operator at position `i`. -/
def isProper (ts : List Token) (i : Nat) : Bool := ts[i]?.any (!·.isParen)

/-- Whether the token at position `i` is emitted before the one at position `j`, or they are the
same: the earlier time comes first, and at one time the later position. -/
def noLater (ts : List Token) (i j : Nat) : Bool :=
  emission ts i < emission ts j || (emission ts i == emission ts j && j ≤ i)

/-- The positions of all operands and operators **in the order of their emission**. -/
def emissionOrder (ts : List Token) : List Nat :=
  ((List.range ts.length).filter (isProper ts)).mergeSort (noLater ts)

/-- The tokens at some positions. -/
def tokensAt (ts : List Token) (ps : List Nat) : List Token := ps.filterMap (ts[·]?)

theorem isProper_iff {ts : List Token} {i : Nat} :
    isProper ts i = true ↔
      (∃ text, ts[i]? = some (.operand text)) ∨ ∃ o, ts[i]? = some (.operator o) := by
  unfold isProper
  rcases ts[i]? with _ | t
  · simp
  · cases t <;> simp [Token.isParen]

theorem isProper_of_operand {ts : List Token} {i : Nat} {text : String}
    (h : ts[i]? = some (.operand text)) : isProper ts i = true :=
  isProper_iff.2 (Or.inl ⟨text, h⟩)

theorem isProper_of_operator {ts : List Token} {i : Nat} {o : Operator}
    (h : ts[i]? = some (.operator o)) : isProper ts i = true :=
  isProper_iff.2 (Or.inr ⟨o, h⟩)

theorem lt_length_of_isProper {ts : List Token} {i : Nat} (h : isProper ts i = true) :
    i < ts.length := by
  rcases isProper_iff.1 h with ⟨text, hi⟩ | ⟨o, hi⟩
  · exact (List.getElem?_eq_some_iff.1 hi).1
  · exact (List.getElem?_eq_some_iff.1 hi).1

theorem releases_iff {ts : List Token} {i j : Nat} :
    releases ts i j = true ↔ i < j ∧ group ts i = group ts j ∧
      ∃ o, ts[i]? = some (.operator o) ∧
        ((∃ c : Connective, ts[j]? = some (.operator (.binary c)) ∧
          c.precedence ≤ o.precedence) ∨ ts[j]? = some .rightParen) := by
  simp only [releases, Bool.and_eq_true, decide_eq_true_eq, beq_iff_eq, and_assoc]
  refine and_congr_right fun _ => and_congr_right fun _ => ?_
  split
  · next o c hi hj => simp [hi, hj]
  · next o hi hj => simp [hi, hj]
  · next h₁ h₂ =>
      simp only [Bool.false_eq_true, false_iff, not_exists, not_and, not_or]
      intro o hi
      exact ⟨fun c hj _ => h₁ o c hi hj, fun hj => h₂ o hi hj⟩

theorem emission_operand {ts : List Token} {i : Nat} {text : String}
    (h : ts[i]? = some (.operand text)) : emission ts i = i := by
  rw [emission, h]

theorem emission_operator {ts : List Token} {i : Nat} {o : Operator}
    (h : ts[i]? = some (.operator o)) :
    emission ts i = ((List.range ts.length).find? (releases ts i)).getD ts.length := by
  rw [emission, h]

/-- An operator is emitted before some time exactly if something **releases it** before. -/
theorem emission_lt_iff {ts : List Token} {i k : Nat} {o : Operator}
    (h : ts[i]? = some (.operator o)) (hk : k ≤ ts.length) :
    emission ts i < k ↔ ∃ j < k, releases ts i j = true := by
  rw [emission_operator h]
  cases hf : (List.range ts.length).find? (releases ts i) with
  | none =>
      have hnone := List.find?_range_eq_none.1 hf
      simp only [Option.getD_none]
      constructor
      · intro hlt
        omega
      · rintro ⟨j, hj, hr⟩
        have hno := hnone j (by omega)
        rw [hr] at hno
        simp at hno
  | some e =>
      obtain ⟨he, -, hmin⟩ := List.find?_range_eq_some.1 hf
      simp only [Option.getD_some]
      constructor
      · intro hlt
        exact ⟨e, hlt, he⟩
      · rintro ⟨j, hj, hr⟩
        by_contra hle
        have hno := hmin j (by omega)
        rw [hr] at hno
        simp at hno

theorem emission_le_length {ts : List Token} {i : Nat} (h : isProper ts i = true) :
    emission ts i ≤ ts.length := by
  rcases isProper_iff.1 h with ⟨text, hi⟩ | ⟨o, hi⟩
  · rw [emission_operand hi]
    exact Nat.le_of_lt (lt_length_of_isProper h)
  · rw [emission_operator hi]
    cases hf : (List.range ts.length).find? (releases ts i) with
    | none => exact Nat.le_refl _
    | some e =>
        have he := List.mem_range.1 (List.mem_of_find?_eq_some hf)
        exact Nat.le_of_lt he

/-! ### Only one order -/

/-- The token at position `i` is emitted before the one at position `j`. -/
def Before (ts : List Token) (i j : Nat) : Prop :=
  emission ts i < emission ts j ∨ emission ts i = emission ts j ∧ j < i

instance {ts : List Token} : DecidableRel (Before ts) := fun i j =>
  inferInstanceAs (Decidable (emission ts i < emission ts j ∨
    emission ts i = emission ts j ∧ j < i))

theorem noLater_iff {ts : List Token} {i j : Nat} :
    noLater ts i j = true ↔
      emission ts i < emission ts j ∨ emission ts i = emission ts j ∧ j ≤ i := by
  simp only [noLater, Bool.or_eq_true, Bool.and_eq_true, decide_eq_true_eq, beq_iff_eq]

theorem nodup_of_pairwise_before {ts : List Token} {ps : List Nat} (h : ps.Pairwise (Before ts)) :
    ps.Nodup := by
  refine h.imp ?_
  rintro i j h rfl
  unfold Before at h
  omega

theorem nodup_emissionOrder (ts : List Token) : (emissionOrder ts).Nodup :=
  (List.mergeSort_perm _ _).nodup_iff.2 (List.nodup_range.filter _)

theorem mem_emissionOrder_iff {ts : List Token} {i : Nat} :
    i ∈ emissionOrder ts ↔ isProper ts i = true := by
  rw [emissionOrder, List.mem_mergeSort, List.mem_filter, List.mem_range]
  exact ⟨fun h => h.2, fun h => ⟨lt_length_of_isProper h, h⟩⟩

theorem pairwise_noLater_emissionOrder (ts : List Token) :
    (emissionOrder ts).Pairwise fun i j => noLater ts i j = true := by
  refine List.pairwise_mergeSort ?_ ?_ _
  · intro a b c
    simp only [noLater_iff]
    omega
  · intro a b
    simp only [Bool.or_eq_true, noLater_iff]
    omega

/-- The order of emission follows the law. -/
theorem pairwise_before_emissionOrder (ts : List Token) :
    (emissionOrder ts).Pairwise (Before ts) := by
  refine ((pairwise_noLater_emissionOrder ts).and (nodup_emissionOrder ts)).imp ?_
  rintro i j ⟨h, hne⟩
  rw [noLater_iff] at h
  unfold Before
  omega

/-- A list of all operands and operators that follows the law is **the order of emission**. -/
theorem eq_emissionOrder {ts : List Token} {ps : List Nat}
    (hmem : ∀ i, i ∈ ps ↔ isProper ts i = true) (hps : ps.Pairwise (Before ts)) :
    ps = emissionOrder ts := by
  have hperm : ps.Perm (emissionOrder ts) := by
    rw [List.perm_ext_iff_of_nodup (nodup_of_pairwise_before hps) (nodup_emissionOrder ts)]
    intro i
    rw [hmem, mem_emissionOrder_iff]
  refine List.Perm.eq_of_pairwise ?_ hps (pairwise_before_emissionOrder ts) hperm
  intro i j _ _
  unfold Before
  omega

/-! ### From one position to the next -/

/-- The position `k` of a token goes to the output at once if the token is an operand. -/
def passing (k : Nat) : Token → List Nat
  | .operand _ => [k]
  | _ => []

/-- The position `k` of a token is kept if the token is an operator or opens a group. -/
def stacking (k : Nat) : Token → List Nat
  | .operator _ => [k]
  | .leftParen => [k]
  | _ => []

/-- When the first `k` tokens have been read, `out` has been emitted, and the operators in `ws`,
which may hold other positions too, have not. -/
structure Emitted (ts : List Token) (k : Nat) (out ws : List Nat) : Prop where
  mem_out : ∀ i, i ∈ out ↔ isProper ts i = true ∧ emission ts i < k
  sorted : out.Pairwise (Before ts)
  mem_waiting : ∀ i o, ts[i]? = some (.operator o) → (i ∈ ws ↔ i < k ∧ k ≤ emission ts i)
  latest : ws.Pairwise (· > ·)
  lt : ∀ i ∈ ws, i < k

theorem emitted_zero (ts : List Token) : Emitted ts 0 [] [] where
  mem_out i := by simp
  sorted := List.Pairwise.nil
  mem_waiting i o _ := by simp
  latest := List.Pairwise.nil
  lt i hi := by simp at hi

namespace Emitted

variable {ts : List Token} {k : Nat} {out ws rest : List Nat} {t : Token}

/-- What the token at position `k` releases is emitted at time `k`. -/
theorem emission_eq (h : Emitted ts k out ws) (hk : k < ts.length) {i : Nat} (hi : i ∈ ws)
    (hr : releases ts i k = true) : emission ts i = k := by
  obtain ⟨-, -, o, ho, -⟩ := releases_iff.1 hr
  have hle := ((h.mem_waiting i o ho).1 hi).2
  have hlt := (emission_lt_iff (k := k + 1) ho hk).2 ⟨k, Nat.lt_succ_self k, hr⟩
  omega

theorem advance_mem_out (h : Emitted ts k out ws) (ht : ts[k]? = some t) (i : Nat) :
    i ∈ out ++ ws.filter (releases ts · k) ++ passing k t ↔
      isProper ts i = true ∧ emission ts i < k + 1 := by
  have hk : k < ts.length := (List.getElem?_eq_some_iff.1 ht).1
  rw [List.mem_append, List.mem_append, List.mem_filter]
  constructor
  · rintro ((hi | ⟨hi, hr⟩) | hi)
    · obtain ⟨hp, hlt⟩ := (h.mem_out i).1 hi
      exact ⟨hp, Nat.lt_succ_of_lt hlt⟩
    · obtain ⟨-, -, o, ho, -⟩ := releases_iff.1 hr
      refine ⟨isProper_of_operator ho, ?_⟩
      rw [h.emission_eq hk hi hr]
      exact Nat.lt_succ_self k
    · cases t with
      | operand text =>
          rw [List.mem_singleton.1 hi, emission_operand ht]
          exact ⟨isProper_of_operand ht, Nat.lt_succ_self k⟩
      | _ => simp [passing] at hi
  · rintro ⟨hp, hlt⟩
    by_cases hlt' : emission ts i < k
    · exact Or.inl (Or.inl ((h.mem_out i).2 ⟨hp, hlt'⟩))
    · rcases isProper_iff.1 hp with ⟨text, hi⟩ | ⟨o, ho⟩
      · rw [emission_operand hi] at hlt hlt'
        obtain rfl : i = k := by omega
        obtain rfl : t = .operand text := Option.some.inj (ht.symm.trans hi)
        exact Or.inr (List.mem_singleton.2 rfl)
      · -- nothing released it before, so the token at `k` does
        obtain ⟨j, hj, hr⟩ := (emission_lt_iff ho hk).1 hlt
        have hjk : ¬ j < k := fun hjk =>
          hlt' ((emission_lt_iff ho (Nat.le_of_lt hk)).2 ⟨j, hjk, hr⟩)
        obtain rfl : j = k := by omega
        have hij := (releases_iff.1 hr).1
        exact Or.inl (Or.inr ⟨(h.mem_waiting i o ho).2 ⟨hij, by omega⟩, hr⟩)

theorem advance_sorted (h : Emitted ts k out ws) (ht : ts[k]? = some t) :
    (out ++ ws.filter (releases ts · k) ++ passing k t).Pairwise (Before ts) := by
  have hk : k < ts.length := (List.getElem?_eq_some_iff.1 ht).1
  have htime : ∀ i ∈ ws.filter (releases ts · k), emission ts i = k := by
    intro i hi
    obtain ⟨hi, hr⟩ := List.mem_filter.1 hi
    exact h.emission_eq hk hi hr
  have hreleased : (ws.filter (releases ts · k)).Pairwise (Before ts) := by
    refine (h.latest.filter _).imp_of_mem ?_
    intro i j hi hj hgt
    exact Or.inr ⟨(htime i hi).trans (htime j hj).symm, hgt⟩
  have hboth : (out ++ ws.filter (releases ts · k)).Pairwise (Before ts) := by
    refine List.pairwise_append.2 ⟨h.sorted, hreleased, ?_⟩
    intro i hi j hj
    have hlt := ((h.mem_out i).1 hi).2
    exact Or.inl (by rw [htime j hj]; exact hlt)
  cases t with
  | operand text =>
      -- an operand releases nothing, so all that has been emitted was emitted before
      have hno : ws.filter (releases ts · k) = [] := by
        refine List.filter_eq_nil_iff.2 ?_
        intro i _ hr
        obtain ⟨-, -, o, -, ⟨c, hc, -⟩ | hp⟩ := releases_iff.1 hr
        · rw [ht] at hc
          simp at hc
        · rw [ht] at hp
          simp at hp
      rw [hno, List.append_nil] at hboth ⊢
      refine List.pairwise_append.2 ⟨hboth, List.pairwise_singleton _ _, ?_⟩
      intro i hi j hj
      have hlt := ((h.mem_out i).1 hi).2
      rw [List.mem_singleton.1 hj]
      exact Or.inl (by rw [emission_operand ht]; exact hlt)
  | _ => simpa [passing] using hboth

theorem advance_mem_waiting (h : Emitted ts k out ws) (ht : ts[k]? = some t)
    (hrest : ∀ i o, ts[i]? = some (.operator o) →
      (i ∈ rest ↔ i ∈ ws ∧ releases ts i k = false)) {i : Nat} {o : Operator}
    (ho : ts[i]? = some (.operator o)) :
    i ∈ stacking k t ++ rest ↔ i < k + 1 ∧ k + 1 ≤ emission ts i := by
  have hk : k < ts.length := (List.getElem?_eq_some_iff.1 ht).1
  have hiff := emission_lt_iff (k := k + 1) ho hk
  rw [List.mem_append, hrest i o ho, h.mem_waiting i o ho]
  constructor
  · rintro (hi | ⟨⟨hlt, hle⟩, hr⟩)
    · have hik : i = k := by
        cases t <;> simp [stacking] at hi <;> exact hi
      subst hik
      refine ⟨Nat.lt_succ_self i, ?_⟩
      by_contra hlt
      obtain ⟨j, hj, hr⟩ := hiff.1 (by omega)
      have hij := (releases_iff.1 hr).1
      omega
    · refine ⟨Nat.lt_succ_of_lt hlt, ?_⟩
      by_contra hlt'
      obtain ⟨j, hj, hrj⟩ := hiff.1 (by omega)
      have hjk : ¬ j < k := by
        intro hjk
        have hlt'' := (emission_lt_iff ho (Nat.le_of_lt hk)).2 ⟨j, hjk, hrj⟩
        omega
      obtain rfl : j = k := by omega
      rw [hr] at hrj
      simp at hrj
  · rintro ⟨hlt, hle⟩
    by_cases hik : i = k
    · subst hik
      obtain rfl : t = .operator o := Option.some.inj (ht.symm.trans ho)
      exact Or.inl (List.mem_singleton.2 rfl)
    · refine Or.inr ⟨⟨by omega, by omega⟩, ?_⟩
      by_contra hr
      have hlt' := hiff.2 ⟨k, Nat.lt_succ_self k, by simpa using hr⟩
      omega

/-- **One more token** is read: what it releases is emitted, the latest first, and then it is
emitted itself, or waits, or neither.  Of the positions that wait, only operators matter. -/
theorem advance (h : Emitted ts k out ws) (ht : ts[k]? = some t) (hsub : rest.Sublist ws)
    (hrest : ∀ i o, ts[i]? = some (.operator o) →
      (i ∈ rest ↔ i ∈ ws ∧ releases ts i k = false)) :
    Emitted ts (k + 1) (out ++ ws.filter (releases ts · k) ++ passing k t)
      (stacking k t ++ rest) where
  mem_out := h.advance_mem_out ht
  sorted := h.advance_sorted ht
  mem_waiting i o ho := h.advance_mem_waiting ht hrest ho
  latest := by
    have hlatest := h.latest.sublist hsub
    have hlt : ∀ i ∈ rest, k > i := fun i hi => h.lt i (hsub.subset hi)
    cases t with
    | operand text => exact hlatest
    | rightParen => exact hlatest
    | operator o => exact List.Pairwise.cons hlt hlatest
    | leftParen => exact List.Pairwise.cons hlt hlatest
  lt i hi := by
    rcases List.mem_append.1 hi with hi | hi
    · have hik : i = k := by
        cases t <;> simp [stacking] at hi <;> exact hi
      omega
    · have hlt := h.lt i (hsub.subset hi)
      omega

end Emitted

end Polish
