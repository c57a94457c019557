/-
**Tokens sorted by their precedence.**

Operands before operators, and operators the further in front the tighter they bind: so tokens stand
when no conversion moves them any more.  Such a list is settled by what it has of each rank, and in
which order.  The stable order of the operators is the one that keeps the order of those of one
precedence.

Main definitions:

* `Polish.Token.rank`, `Polish.Ordered` — how far in front a token stands, and tokens **sorted by
  rank**;
* `Polish.Flat` — tokens without parentheses;
* `Polish.Operator.noLooserThan` — the order of operators by precedence;
* `Polish.sortOperators`, `Polish.settled` — the operators, and all tokens, **in a stable order**.

Main results:

* `Polish.eq_of_pairwise_of_filter_eq` — sorted lists with the same elements of each key in the same
  order are equal;
* `Polish.pairwise_sortOperators`, `Polish.filter_sortOperators` — sorting operators sorts them, and
  is stable;
* `Polish.Flat.eq_settled` — there is **only one way** to sort tokens that keeps the order within
  each rank;
* `Polish.flat_and_ordered_iff` — sorted tokens are operands and then operators that get no tighter.
-/

import Polish.Proofs.Log
import Polish.Spelling

set_option relaxedAutoImplicit false
set_option autoImplicit false

namespace Polish

/-! ### Sorted lists -/

section Sorted

variable {α : Type} (key : α → Nat) {xs ys : List α}

theorem mem_iff_of_filter_eq (h : ∀ n, xs.filter (key · = n) = ys.filter (key · = n)) (a : α) :
    a ∈ xs ↔ a ∈ ys := by
  have ha : a ∈ xs.filter (key · = key a) ↔ a ∈ ys.filter (key · = key a) := by rw [h]
  simpa using ha

/-- Lists that are sorted by a key, and have the same elements of each key in the same order, **are
equal**. -/
theorem eq_of_pairwise_of_filter_eq (hxs : xs.Pairwise fun a b => key b ≤ key a)
    (hys : ys.Pairwise fun a b => key b ≤ key a)
    (h : ∀ n, xs.filter (key · = n) = ys.filter (key · = n)) : xs = ys := by
  induction xs generalizing ys with
  | nil =>
      refine (List.eq_nil_iff_forall_not_mem.2 fun a ha => ?_).symm
      exact List.not_mem_nil ((mem_iff_of_filter_eq key h a).2 ha)
  | cons x xs ih =>
      have hx := mem_iff_of_filter_eq key h x
      cases ys with
      | nil => exact absurd (hx.1 List.mem_cons_self) List.not_mem_nil
      | cons y ys =>
          rw [List.pairwise_cons] at hxs hys
          have hy := (mem_iff_of_filter_eq key h y).2 List.mem_cons_self
          -- both lists begin with an element of the largest key
          have hkey : key y = key x := by
            refine Nat.le_antisymm ?_ ?_
            · rcases List.mem_cons.1 hy with rfl | hy
              · exact Nat.le_refl _
              · exact hxs.1 y hy
            · rcases List.mem_cons.1 (hx.1 List.mem_cons_self) with rfl | hx
              · exact Nat.le_refl _
              · exact hys.1 x hx
          have hfirst := h (key x)
          rw [List.filter_cons, List.filter_cons, if_pos (decide_eq_true rfl),
            if_pos (decide_eq_true hkey)] at hfirst
          obtain ⟨rfl, hrest⟩ := List.cons.inj hfirst
          refine congrArg (x :: ·) (ih hxs.2 hys.2 fun n => ?_)
          by_cases hn : key x = n
          · rw [← hn]
            exact hrest
          · have hboth := h n
            rwa [List.filter_cons, List.filter_cons, if_neg (by simpa using hn),
              if_neg (by simpa [hkey] using hn)] at hboth

end Sorted

/-! ### The rank of a token -/

/-- How far in front a token stands when nothing moves any more: an operand before all operators, and
an operator before those that are looser. -/
def Token.rank : Token → Nat
  | .operand _ => 5
  | .operator o => o.precedence
  | _ => 0

theorem Operator.precedence_le (o : Operator) : o.precedence ≤ 4 := by
  cases o with
  | binary c => exact Nat.le_succ_of_le c.precedence_le
  | neg => exact Nat.le_refl 4

namespace Token

@[simp] theorem rank_operand (text : String) : (operand text).rank = 5 := rfl

@[simp] theorem rank_operator (o : Operator) : (operator o).rank = o.precedence := rfl

@[simp] theorem rank_neg : (operator .neg).rank = 4 := rfl

theorem rank_le (t : Token) : t.rank ≤ 5 := by
  cases t with
  | operand text => exact Nat.le_refl 5
  | operator o => exact Nat.le_succ_of_le o.precedence_le
  | _ => exact Nat.zero_le 5

theorem rank_eq_five_iff {t : Token} : t.rank = 5 ↔ t.isOperand = true := by
  cases t with
  | operand text => exact ⟨fun _ => rfl, fun _ => rfl⟩
  | operator o =>
      have hle := o.precedence_le
      simp only [rank, isOperand, Bool.false_eq_true, iff_false]
      omega
  | _ => exact ⟨fun h => (by cases h), fun h => (by cases h)⟩

/-- A token of a lower rank than a negation is a connective or a parenthesis. -/
theorem exists_connective {t : Token} (h : t.isParen = false) (hlt : t.rank < 4) :
    ∃ c : Connective, t = .operator (.binary c) := by
  cases t with
  | operand text => exact absurd hlt (Nat.not_lt.2 (Nat.le_succ 4))
  | operator o =>
      cases o with
      | binary c => exact ⟨c, rfl⟩
      | neg => exact absurd hlt (Nat.lt_irrefl 4)
  | _ => cases h

/-- Nothing but a negation has its rank. -/
theorem eq_neg_of_rank {t : Token} (h : t.rank = 4) : t = .operator .neg := by
  cases t with
  | operator o =>
      cases o with
      | neg => rfl
      | binary c =>
          have hle := c.precedence_le
          change c.precedence = 4 at h
          omega
  | _ => cases h

end Token

/-- The tokens are sorted by their ranks, the highest first. -/
def Ordered (ts : List Token) : Prop := ts.Pairwise fun t u => u.rank ≤ t.rank

theorem ordered_concat_iff {ts : List Token} {t : Token} :
    Ordered (ts ++ [t]) ↔ Ordered ts ∧ ∀ u ∈ ts, t.rank ≤ u.rank := by
  rw [Ordered, List.pairwise_append]
  constructor
  · rintro ⟨hts, -, hle⟩
    exact ⟨hts, fun u hu => hle u hu t List.mem_cons_self⟩
  · rintro ⟨hts, hle⟩
    refine ⟨hts, List.pairwise_singleton _ _, fun u hu v hv => ?_⟩
    rw [List.mem_singleton.1 hv]
    exact hle u hu

/-! ### Tokens without parentheses -/

/-- No parenthesis is among the tokens. -/
def Flat (ts : List Token) : Prop := ∀ t ∈ ts, t.isParen = false

namespace Flat

variable {ts us : List Token}

theorem append_iff : Flat (ts ++ us) ↔ Flat ts ∧ Flat us := List.forall_mem_append

theorem cons_iff {t : Token} : Flat (t :: ts) ↔ t.isParen = false ∧ Flat ts := List.forall_mem_cons

theorem perm (h : Flat ts) (hperm : us.Perm ts) : Flat us := fun t ht => h t (hperm.mem_iff.1 ht)

end Flat

/-! ### Settled tokens -/

/-- Whether the operator `o` binds at least as tightly as `o'`. -/
def Operator.noLooserThan (o o' : Operator) : Bool := o'.precedence ≤ o.precedence

theorem Operator.noLooserThan_iff {o o' : Operator} :
    o.noLooserThan o' = true ↔ o'.precedence ≤ o.precedence := decide_eq_true_iff

theorem Operator.noLooserThan_trans (o₁ o₂ o₃ : Operator) (h : o₁.noLooserThan o₂ = true)
    (h' : o₂.noLooserThan o₃ = true) : o₁.noLooserThan o₃ = true := by
  rw [noLooserThan_iff] at h h' ⊢
  exact Nat.le_trans h' h

theorem Operator.noLooserThan_total (o o' : Operator) :
    (o.noLooserThan o' || o'.noLooserThan o) = true := by
  rw [Bool.or_eq_true, noLooserThan_iff, noLooserThan_iff]
  exact Nat.le_total _ _

/-- Some operators in the **stable** order of their precedence, the tightest first. -/
def sortOperators (os : List Operator) : List Operator := os.mergeSort Operator.noLooserThan

/-- The operands of some tokens in their order, and behind them the operators in the stable order of
their precedence. -/
def settled (ts : List Token) : List Token :=
  ts.filter (·.isOperand) ++ (sortOperators (operatorsOf ts)).map .operator

theorem pairwise_sortOperators (os : List Operator) :
    (sortOperators os).Pairwise fun o o' => o'.precedence ≤ o.precedence :=
  (List.pairwise_mergeSort Operator.noLooserThan_trans Operator.noLooserThan_total os).imp
    Operator.noLooserThan_iff.1

/-- Operators of one precedence **keep their order** when they are sorted. -/
theorem filter_sortOperators (os : List Operator) (n : Nat) :
    (sortOperators os).filter (·.precedence = n) = os.filter (·.precedence = n) := by
  have hlength := ((List.mergeSort_perm os Operator.noLooserThan).filter
    (·.precedence = n)).length_eq
  have hequal : (os.filter (·.precedence = n)).Pairwise (Operator.noLooserThan · ·) := by
    refine List.pairwise_of_forall_mem_list fun o ho o' ho' => Operator.noLooserThan_iff.2 ?_
    have hn := of_decide_eq_true (List.mem_filter.1 ho).2
    have hn' := of_decide_eq_true (List.mem_filter.1 ho').2
    exact Nat.le_of_eq (hn'.trans hn.symm)
  have hsublist := (List.sublist_mergeSort Operator.noLooserThan_trans
    Operator.noLooserThan_total hequal List.filter_sublist).filter (·.precedence = n)
  simp only [List.filter_filter, Bool.and_self] at hsublist
  exact (hsublist.eq_of_length hlength.symm).symm

theorem ordered_settled (ts : List Token) : Ordered (settled ts) := by
  refine List.pairwise_append.2 ⟨?_, ?_, fun t ht u hu => ?_⟩
  · refine List.pairwise_of_forall_mem_list fun t ht u _ => ?_
    rw [Token.rank_eq_five_iff.2 (List.mem_filter.1 ht).2]
    exact u.rank_le
  · exact List.pairwise_map.2 (pairwise_sortOperators _)
  · rw [Token.rank_eq_five_iff.2 (List.mem_filter.1 ht).2]
    exact u.rank_le

namespace Flat

variable {ts us : List Token}

theorem map_operator_filter (h : Flat ts) {n : Nat} (hn : n ≠ 5) :
    ((operatorsOf ts).filter (·.precedence = n)).map .operator = ts.filter (·.rank = n) := by
  induction ts with
  | nil => rfl
  | cons t ts ih =>
      obtain ⟨ht, hts⟩ := cons_iff.1 h
      rw [List.filter_cons, ← ih hts]
      cases t with
      | operand text =>
          rw [Token.rank_operand, if_neg (mt of_decide_eq_true (Ne.symm hn))]
          rfl
      | operator o =>
          have hoperators : operatorsOf (.operator o :: ts) = o :: operatorsOf ts := rfl
          rw [hoperators, List.filter_cons, Token.rank_operator]
          split
          · rfl
          · rfl
      | _ => cases ht

theorem filter_rank_settled (h : Flat ts) (n : Nat) :
    (settled ts).filter (·.rank = n) = ts.filter (·.rank = n) := by
  have hoperators : ((sortOperators (operatorsOf ts)).map Token.operator).filter (·.rank = n) =
      ((operatorsOf ts).filter (·.precedence = n)).map .operator := by
    rw [List.filter_map, ← filter_sortOperators]
    rfl
  rw [settled, List.filter_append, hoperators, List.filter_filter]
  by_cases hn : n = 5
  · have hnone : (operatorsOf ts).filter (·.precedence = n) = [] := by
      refine List.filter_eq_nil_iff.2 fun o _ => ?_
      have hle := o.precedence_le
      simp only [decide_eq_true_eq]
      omega
    rw [hnone, List.map_nil, List.append_nil]
    refine List.filter_congr fun t _ => ?_
    rw [Bool.eq_iff_iff, Bool.and_eq_true, decide_eq_true_eq, ← Token.rank_eq_five_iff, hn]
    exact and_self_iff
  · have hnone : ts.filter (fun t => decide (t.rank = n) && t.isOperand) = [] := by
      refine List.filter_eq_nil_iff.2 fun t _ => ?_
      rw [Bool.and_eq_true, decide_eq_true_eq, ← Token.rank_eq_five_iff]
      rintro ⟨rfl, hfive⟩
      exact hn hfive
    rw [hnone, List.nil_append, h.map_operator_filter hn]

/-- Sorted tokens with the same tokens of each rank in the same order **are the settled ones**. -/
theorem eq_settled (h : Flat ts) (hordered : Ordered us)
    (hfilter : ∀ n, us.filter (·.rank = n) = ts.filter (·.rank = n)) : us = settled ts :=
  eq_of_pairwise_of_filter_eq Token.rank hordered (ordered_settled ts) fun n =>
    (hfilter n).trans (h.filter_rank_settled n).symm

theorem mem_settled_iff (h : Flat ts) {t : Token} : t ∈ settled ts ↔ t ∈ ts :=
  mem_iff_of_filter_eq Token.rank h.filter_rank_settled t

theorem flat_settled (h : Flat ts) : Flat (settled ts) := fun t ht => h t (h.mem_settled_iff.1 ht)

/-- A loosest connective that comes last is in its place. -/
theorem settled_concat (h : Flat ts) {c : Connective} (hloosest : ∀ t ∈ ts, c.precedence ≤ t.rank) :
    settled (ts ++ [.operator (.binary c)]) = settled ts ++ [.operator (.binary c)] := by
  have hflat : Flat (ts ++ [.operator (.binary c)]) := append_iff.2 ⟨h, by simp [Flat, Token.isParen]⟩
  refine (hflat.eq_settled ?_ fun n => ?_).symm
  · exact ordered_concat_iff.2
      ⟨ordered_settled ts, fun t ht => hloosest t (h.mem_settled_iff.1 ht)⟩
  · rw [List.filter_append, h.filter_rank_settled, List.filter_append]

end Flat

theorem exists_map_operand {ts : List Token} (h : ∀ t ∈ ts, t.isOperand = true) :
    ∃ texts : List String, ts = texts.map .operand := by
  induction ts with
  | nil => exact ⟨[], rfl⟩
  | cons t ts ih =>
      obtain ⟨ht, hts⟩ := List.forall_mem_cons.1 h
      obtain ⟨texts, rfl⟩ := ih hts
      cases t with
      | operand text => exact ⟨text :: texts, rfl⟩
      | _ => cases ht

/-- Sorted tokens are **operands followed by operators that get no tighter**. -/
theorem flat_and_ordered_iff {ts : List Token} :
    Flat ts ∧ Ordered ts ↔
      ∃ (texts : List String) (os : List Operator), ts = texts.map .operand ++ os.map .operator ∧
        os.Pairwise fun o o' => o'.precedence ≤ o.precedence := by
  constructor
  · rintro ⟨hflat, hordered⟩
    obtain ⟨texts, htexts⟩ := @exists_map_operand (ts.filter (·.isOperand)) fun t ht =>
      (List.mem_filter.1 ht).2
    refine ⟨texts, sortOperators (operatorsOf ts), ?_, pairwise_sortOperators _⟩
    rw [← htexts]
    exact hflat.eq_settled hordered fun _ => rfl
  · rintro ⟨texts, os, rfl, hos⟩
    refine ⟨Flat.append_iff.2 ⟨fun t ht => ?_, fun t ht => ?_⟩, ?_⟩
    · obtain ⟨text, -, rfl⟩ := List.mem_map.1 ht
      rfl
    · obtain ⟨o, -, rfl⟩ := List.mem_map.1 ht
      rfl
    · refine List.pairwise_append.2 ⟨?_, List.pairwise_map.2 hos, fun t ht u _ => ?_⟩
      · exact List.pairwise_map.2 (List.pairwise_of_forall fun _ _ => Nat.le_refl 5)
      · obtain ⟨text, -, rfl⟩ := List.mem_map.1 ht
        exact u.rank_le

end Polish
