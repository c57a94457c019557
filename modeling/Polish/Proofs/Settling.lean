/-
**Converting again and again.**

The postfix form of some tokens is a list of tokens, and it may be converted once more.  A second
conversion can change it: operators that come to stand beside each other in the first result meet on
the stack of the next run, where a loose one does not give way to a tight one that comes later.  So
operators move to the right past those that bind tighter, as in a sort by passes.  Each pass brings
at least one more connective to its last place, the loosest first, and none changes the order of two
operators of one precedence.  Once the operators are sorted behind the operands, nothing moves any
more, and only then.

Main definitions:

* `Polish.convertTimes` — converting so many times.

Main results:

* `Polish.Flat.inductionOn` — tokens without parentheses are divided at their connectives;
* `Polish.Flat.filter_rank_divide` — **one pass** keeps the order of the tokens of one rank;
* `Polish.Flat.divide_eq_self` — sorted tokens stay as they are;
* `Polish.Flat.exists_divide_eq_concat` — a pass brings a connective to its place, if there is one;
* `Polish.Flat.iterate_divide` — **as many passes as tokens** settle them;
* `Polish.conversions_settle` — conversions settle, and what they leave unchanged is sorted.
-/

import Polish.Proofs.Division
import Polish.Proofs.Ranking
import Mathlib.Logic.Function.Iterate

set_option relaxedAutoImplicit false
set_option autoImplicit false

namespace Polish

/-- The result of converting `n` times.  A conversion that fails is the last one. -/
def convertTimes : Nat → List Token → Except Mismatch (List Token)
  | 0, ts => .ok ts
  | n + 1, ts => (convert ts).bind (convertTimes n)

/-! ### Tokens without parentheses -/

theorem Token.weight_eq_zero {t : Token} (h : t.isParen = false) : t.weight = 0 := by
  cases t with
  | operand text => rfl
  | operator o => rfl
  | _ => cases h

namespace Flat

variable {ts us : List Token}

theorem excess_eq_zero (h : Flat ts) : excess ts = 0 := by
  induction ts with
  | nil => rfl
  | cons t ts ih =>
      obtain ⟨ht, hts⟩ := cons_iff.1 h
      rw [excess_cons, Token.weight_eq_zero ht, ih hts]
      rfl

/-- Without parentheses, none lacks a partner. -/
theorem matched (h : Flat ts) : Matched ts := by
  refine ⟨fun k _ => ?_, h.excess_eq_zero⟩
  have htake : Flat (ts.take k) := fun t ht => h t (List.mem_of_mem_take ht)
  exact Int.le_of_eq htake.excess_eq_zero

theorem mem_outer_iff (h : Flat ts) {c : Connective} :
    c ∈ outer ts ↔ Token.operator (.binary c) ∈ ts := by
  induction ts with
  | nil => simp [outer, outerFrom]
  | cons t ts ih =>
      obtain ⟨ht, hts⟩ := cons_iff.1 h
      rw [outer, outerFrom, Token.weight_eq_zero ht, List.mem_append, Option.mem_toList,
        Token.outer?_eq_some_iff, List.mem_cons, ← ih hts]
      simp [outer, eq_comm]

/-- Bounds of the connectives are bounds of the ranks, for all else has rank 4 at least. -/
theorem forall_outer_iff (h : Flat ts) {n : Nat} (hn : n ≤ 4) :
    (∀ c ∈ outer ts, n ≤ c.precedence) ↔ ∀ t ∈ ts, n ≤ t.rank := by
  constructor
  · intro hle t ht
    cases t with
    | operand text => exact Nat.le_succ_of_le hn
    | operator o =>
        cases o with
        | binary c => exact hle c (h.mem_outer_iff.2 ht)
        | neg => exact hn
    | _ => cases h _ ht
  · intro hle c hc
    exact hle _ (h.mem_outer_iff.1 hc)

theorem outer_eq_nil_iff (h : Flat ts) : outer ts = [] ↔ ∀ t ∈ ts, 4 ≤ t.rank := by
  rw [← h.forall_outer_iff (Nat.le_refl 4), List.eq_nil_iff_forall_not_mem]
  refine forall₂_congr fun c _ => ⟨False.elim, fun hge => ?_⟩
  have hle := c.precedence_le
  omega

/-! ### One pass -/

/-- Tokens without parentheses **are divided** at the last of their loosest connectives, or have
none. -/
theorem exists_split (h : Flat ts) :
    (∃ (c : Connective) (ls rs : List Token), ts = ls ++ .operator (.binary c) :: rs ∧
      Flat ls ∧ Flat rs ∧ (∀ t ∈ ls, c.precedence ≤ t.rank) ∧ ∀ t ∈ rs, c.precedence < t.rank) ∨
    ∀ t ∈ ts, 4 ≤ t.rank := by
  cases hfound : pivotFrom? 0 ts with
  | none => exact .inr (h.outer_eq_nil_iff.1 (pivotFrom?_eq_none_iff.1 hfound))
  | some p =>
      have hp := pivotFrom?_eq_some_iff.1 hfound
      obtain ⟨hls, hrs⟩ := append_iff.1 (hp.tokens ▸ h)
      have hc := p.connective.precedence_le
      exact .inl ⟨p.connective, p.before, p.behind, hp.tokens, hls, (cons_iff.1 hrs).2,
        (hls.forall_outer_iff (by omega)).1 hp.loosest,
        ((cons_iff.1 hrs).2.forall_outer_iff (by omega)).1 hp.last⟩

/-- What holds of the two sides of a connective and then of the whole, and of operands and negations
one by one where there is no connective, holds of **all tokens without parentheses**. -/
@[elab_as_elim]
theorem inductionOn {motive : List Token → Prop} (h : Flat ts)
    (connective : ∀ (c : Connective) (ls rs : List Token), Flat ls → Flat rs →
      (∀ t ∈ ls, c.precedence ≤ t.rank) → (∀ t ∈ rs, c.precedence < t.rank) →
      motive ls → motive rs → motive (ls ++ .operator (.binary c) :: rs))
    (nil : motive [])
    (operand : ∀ (text : String) (us : List Token), Flat us → (∀ t ∈ us, 4 ≤ t.rank) →
      motive us → motive (.operand text :: us))
    (neg : ∀ us : List Token, Flat us → (∀ t ∈ us, 4 ≤ t.rank) →
      motive us → motive (.operator .neg :: us)) : motive ts := by
  induction hlen : ts.length using Nat.strongRecOn generalizing ts with
  | ind len ih =>
      subst hlen
      obtain ⟨c, ls, rs, rfl, hls, hrs, hloosest, hlast⟩ | htight := h.exists_split
      · rw [List.length_append, List.length_cons] at ih
        exact connective c ls rs hls hrs hloosest hlast (ih _ (by omega) hls rfl)
          (ih _ (by omega) hrs rfl)
      · cases ts with
        | nil => exact nil
        | cons t us =>
            obtain ⟨ht, hus⟩ := cons_iff.1 h
            obtain ⟨htight, htights⟩ := List.forall_mem_cons.1 htight
            have hmotive := ih us.length (Nat.lt_succ_self _) hus rfl
            cases t with
            | operand text => exact operand text us hus htights hmotive
            | operator o =>
                cases o with
                | neg => exact neg us hus htights hmotive
                | binary c =>
                    have hle := c.precedence_le
                    change 4 ≤ c.precedence at htight
                    omega
            | _ => cases ht

theorem divide_connective {ls rs : List Token} {c : Connective} (hls : Flat ls) (hrs : Flat rs)
    (hloosest : ∀ t ∈ ls, c.precedence ≤ t.rank) (hlast : ∀ t ∈ rs, c.precedence < t.rank) :
    divide (ls ++ .operator (.binary c) :: rs) =
      divide ls ++ divide rs ++ [.operator (.binary c)] := by
  have hc := c.precedence_le
  exact byDivision_divide.connective c ls rs hls.matched hrs.matched
    ((hls.forall_outer_iff (by omega)).2 hloosest) ((hrs.forall_outer_iff (by omega)).2 hlast)

theorem divide_operand (h : Flat ts) (htight : ∀ t ∈ ts, 4 ≤ t.rank) (text : String) :
    divide (.operand text :: ts) = .operand text :: divide ts :=
  byDivision_divide.operand text ts h.matched (h.outer_eq_nil_iff.2 htight)

theorem divide_neg (h : Flat ts) (htight : ∀ t ∈ ts, 4 ≤ t.rank) :
    divide (.operator .neg :: ts) = divide ts ++ [.operator .neg] :=
  byDivision_divide.neg ts h.matched (h.outer_eq_nil_iff.2 htight)

/-- A conversion is **one pass**, and it succeeds. -/
theorem convert_eq (h : Flat ts) : convert ts = .ok (divide ts) :=
  (byDivision_divide.finds h.matched 0 (Nat.zero_le 4) fun _ _ => Nat.zero_le _).convert

theorem divide_perm (h : Flat ts) : (divide ts).Perm ts := by
  have hperm := perm_of_convert h.convert_eq
  rwa [List.filter_eq_self.2 fun t ht => by simp [h t ht]] at hperm

theorem flat_divide (h : Flat ts) : Flat (divide ts) := h.perm h.divide_perm

/-- One pass **keeps the order of tokens of one rank**. -/
theorem filter_rank_divide (h : Flat ts) (n : Nat) :
    (divide ts).filter (·.rank = n) = ts.filter (·.rank = n) := by
  refine inductionOn h ?connective ?nil ?operand ?neg
  case connective =>
    intro c ls rs hls hrs hloosest hlast ihl ihr
    rw [divide_connective hls hrs hloosest hlast]
    simp only [List.filter_append, List.filter_cons, ihl, ihr, List.append_assoc]
    by_cases hn : c.precedence = n
    · -- behind the last of the loosest connectives there is none of their rank
      have hnone : rs.filter (·.rank = n) = [] := by
        refine List.filter_eq_nil_iff.2 fun t ht => ?_
        have hlt := hlast t ht
        simp only [decide_eq_true_eq]
        omega
      rw [hnone]
      rfl
    · simp [hn]
  case nil => rw [byDivision_divide.nil]
  case operand =>
    intro text us hus htight ih
    rw [divide_operand hus htight, List.filter_cons, List.filter_cons, ih]
  case neg =>
    intro us hus htight ih
    rw [divide_neg hus htight, List.filter_append, ih]
    by_cases hn : n = 4
    · -- all tokens of this rank are negations, so it does not matter which of them comes first
      obtain ⟨k, hk⟩ : ∃ k, us.filter (·.rank = n) = List.replicate k (.operator .neg) := by
        refine ⟨_, List.eq_replicate_of_mem fun t ht => Token.eq_neg_of_rank ?_⟩
        exact (of_decide_eq_true (List.mem_filter.1 ht).2).trans hn
      rw [List.filter_cons, List.filter_cons, Token.rank_neg, if_pos (decide_eq_true hn.symm),
        if_pos (decide_eq_true hn.symm), hk, List.filter_nil]
      exact List.replicate_succ'.symm
    · have hno : ¬ decide (4 = n) = true := mt of_decide_eq_true (Ne.symm hn)
      rw [List.filter_cons, List.filter_cons, Token.rank_neg, if_neg hno, if_neg hno,
        List.filter_nil, List.append_nil]

/-- Where there is no connective, one pass **sorts the tokens**. -/
theorem ordered_divide (h : Flat ts) (htight : ∀ t ∈ ts, 4 ≤ t.rank) :
    Ordered (divide ts) := by
  revert htight
  refine inductionOn h ?connective ?nil ?operand ?neg
  case connective =>
    intro c ls rs _ _ _ _ _ _ htight
    have hge : 4 ≤ c.precedence := htight _ (List.mem_append_right _ List.mem_cons_self)
    have hle := c.precedence_le
    omega
  case nil =>
    intro _
    rw [byDivision_divide.nil]
    exact List.Pairwise.nil
  case operand =>
    intro text us hus htight ih _
    rw [divide_operand hus htight]
    exact List.pairwise_cons.2 ⟨fun t _ => t.rank_le, ih htight⟩
  case neg =>
    intro us hus htight ih _
    rw [divide_neg hus htight]
    exact ordered_concat_iff.2
      ⟨ih htight, fun t ht => htight t (hus.divide_perm.mem_iff.1 ht)⟩

/-- A loosest connective that comes last stays there, and what stands before it is treated on its
own. -/
theorem divide_concat (h : Flat ts) {c : Connective} (hloosest : ∀ t ∈ ts, c.precedence ≤ t.rank) :
    divide (ts ++ [.operator (.binary c)]) =
      divide ts ++ [.operator (.binary c)] := by
  rw [divide_connective h (by simp [Flat]) hloosest (by simp), byDivision_divide.nil,
    List.append_nil]

/-- **Sorted tokens stay** as they are. -/
theorem divide_eq_self (h : Flat ts) (hordered : Ordered ts) : divide ts = ts := by
  induction ts using List.reverseRecOn with
  | nil => exact byDivision_divide.nil
  | append_singleton us t ih =>
      obtain ⟨hus, ht⟩ := append_iff.1 h
      obtain ⟨husordered, hlast⟩ := ordered_concat_iff.1 hordered
      rcases Nat.lt_or_ge t.rank 4 with hlt | hge
      · obtain ⟨c, rfl⟩ := Token.exists_connective (ht t List.mem_cons_self) hlt
        rw [hus.divide_concat hlast, ih hus husordered]
      · -- no token is looser than the last one, so there is no connective
        have htight : ∀ u ∈ us ++ [t], 4 ≤ u.rank := by
          intro u hu
          rcases List.mem_append.1 hu with hu | hu
          · exact Nat.le_trans hge (hlast u hu)
          · rw [List.mem_singleton.1 hu]
            exact hge
        exact eq_of_pairwise_of_filter_eq Token.rank (h.ordered_divide htight) hordered
          h.filter_rank_divide

/-- One pass brings **the last of the loosest connectives** to the end, if there is one. -/
theorem exists_divide_eq_concat (h : Flat ts) :
    (∃ (us : List Token) (c : Connective), divide ts = us ++ [.operator (.binary c)] ∧ Flat us ∧
      ∀ t ∈ us, c.precedence ≤ t.rank) ∨ ∀ t ∈ ts, 4 ≤ t.rank := by
  obtain ⟨c, ls, rs, rfl, hls, hrs, hloosest, hlast⟩ | htight := h.exists_split
  · refine .inl ⟨divide ls ++ divide rs, c, divide_connective hls hrs hloosest hlast,
      append_iff.2 ⟨hls.flat_divide, hrs.flat_divide⟩, fun t ht => ?_⟩
    rcases List.mem_append.1 ht with ht | ht
    · exact hloosest t (hls.divide_perm.mem_iff.1 ht)
    · exact Nat.le_of_lt (hlast t (hrs.divide_perm.mem_iff.1 ht))
  · exact .inr htight

/-- One pass does not change what the tokens settle to. -/
theorem settled_divide (h : Flat ts) : settled (divide ts) = settled ts :=
  h.eq_settled (ordered_settled _) fun n =>
    (h.flat_divide.filter_rank_settled n).trans (h.filter_rank_divide n)

/-! ### Several passes -/

theorem iterate_divide_concat (h : Flat ts) {c : Connective}
    (hloosest : ∀ t ∈ ts, c.precedence ≤ t.rank) (n : Nat) :
    divide^[n] (ts ++ [.operator (.binary c)]) =
      divide^[n] ts ++ [.operator (.binary c)] := by
  induction n generalizing ts with
  | zero => rfl
  | succ n ih =>
      have hloosest' : ∀ t ∈ divide ts, c.precedence ≤ t.rank := fun t ht =>
        hloosest t (h.divide_perm.mem_iff.1 ht)
      rw [Function.iterate_succ_apply, Function.iterate_succ_apply, h.divide_concat hloosest,
        ih h.flat_divide hloosest']

/-- After **as many passes as tokens**, they are settled.  The first pass brings a connective to its
place, and the others settle before it. -/
theorem iterate_divide (h : Flat ts) {n : Nat} (hn : ts.length ≤ n) :
    divide^[n] ts = settled ts := by
  induction n generalizing ts with
  | zero =>
      obtain rfl := List.length_eq_zero_iff.1 (Nat.le_zero.1 hn)
      exact h.eq_settled List.Pairwise.nil fun _ => rfl
  | succ n ih =>
      rw [Function.iterate_succ_apply]
      obtain ⟨us, c, hdivide, hus, hloosest⟩ | htight := h.exists_divide_eq_concat
      · have hlength : us.length ≤ n := by
          rw [← h.divide_perm.length_eq, hdivide, List.length_append] at hn
          exact Nat.le_of_succ_le_succ hn
        calc divide^[n] (divide ts)
            = divide^[n] us ++ [.operator (.binary c)] := by
              rw [hdivide, hus.iterate_divide_concat hloosest]
          _ = settled us ++ [.operator (.binary c)] := by rw [ih hus hlength]
          _ = settled (divide ts) := by rw [hdivide, hus.settled_concat hloosest]
          _ = settled ts := h.settled_divide
      · rw [h.eq_settled (h.ordered_divide htight) h.filter_rank_divide]
        exact Function.iterate_fixed (h.flat_settled.divide_eq_self (ordered_settled ts)) n

/-- Converting several times is making several passes. -/
theorem convertTimes_eq (h : Flat ts) (n : Nat) : convertTimes n ts = .ok (divide^[n] ts) := by
  induction n generalizing ts with
  | zero => rfl
  | succ n ih =>
      rw [convertTimes, h.convert_eq, Function.iterate_succ_apply]
      exact ih h.flat_divide

end Flat

/-! ### What a conversion leaves unchanged -/

/-- What a conversion gives has no parentheses, so it leaves none unchanged. -/
theorem flat_of_convert_eq_self {ts : List Token} (h : convert ts = .ok ts) : Flat ts := by
  intro t ht
  have hmem := (perm_of_convert h).mem_iff.1 ht
  simpa using (List.mem_filter.1 hmem).2

/-- A conversion leaves unchanged what is **sorted and has no parentheses**, and nothing else. -/
theorem convert_eq_self_iff {ts : List Token} : convert ts = .ok ts ↔ Flat ts ∧ Ordered ts := by
  constructor
  · intro h
    have hflat := flat_of_convert_eq_self h
    have hfixed : divide ts = ts := Except.ok.inj (hflat.convert_eq.symm.trans h)
    have hsettled := hflat.iterate_divide (Nat.le_refl ts.length)
    rw [Function.iterate_fixed hfixed] at hsettled
    exact ⟨hflat, hsettled ▸ ordered_settled ts⟩
  · rintro ⟨hflat, hordered⟩
    rw [hflat.convert_eq, hflat.divide_eq_self hordered]

/-- **Conversions settle.**  Tokens without parentheses can be converted again and again.  When that
has been done as many times as there are tokens, it has led to their operands in their order, followed
by their operators in the stable order of their precedence, and these a conversion leaves unchanged.
Of all tokens, it leaves just those unchanged that are operands followed by operators that get no
tighter. -/
theorem conversions_settle (ts : List Token) :
    ((∀ t ∈ ts, t.isParen = false) →
      (∀ n, ∃ out, convertTimes n ts = .ok out) ∧
      (∀ n, ts.length ≤ n → convertTimes n ts = .ok (settled ts)) ∧
      convert (settled ts) = .ok (settled ts)) ∧
    (convert ts = .ok ts ↔
      ∃ (texts : List String) (os : List Operator), ts = texts.map .operand ++ os.map .operator ∧
        os.Pairwise fun o o' => o'.precedence ≤ o.precedence) := by
  refine ⟨fun h => ?_, convert_eq_self_iff.trans flat_and_ordered_iff⟩
  have hflat : Flat ts := h
  refine ⟨fun n => ⟨_, hflat.convertTimes_eq n⟩, fun n hn => ?_, ?_⟩
  · rw [hflat.convertTimes_eq, hflat.iterate_divide hn]
  · exact convert_eq_self_iff.2 ⟨hflat.flat_settled, ordered_settled ts⟩

/-- Three passes are needed here: a negation has to get past two connectives that stand before it, and
an equality past a comparison, while the two equalities stay in their order. -/
theorem conversions_settle_three_passes :
    let tokens := [Token.operator (.binary .equal), .operator (.binary .less), .operand "a",
      .operator (.binary .equal), .operator (.binary .greater), .operator .neg]
    let form := [Token.operand "a", .operator .neg, .operator (.binary .less),
      .operator (.binary .greater), .operator (.binary .equal), .operator (.binary .equal)]
    (∀ t ∈ tokens, t.isParen = false) ∧
      convertTimes 2 tokens = .ok [.operand "a", .operator (.binary .less), .operator .neg,
        .operator (.binary .greater), .operator (.binary .equal), .operator (.binary .equal)] ∧
      convertTimes 3 tokens = .ok form ∧ settled tokens = form ∧ convert form = .ok form := by
  intro tokens form
  have hflat : ∀ t ∈ tokens, t.isParen = false := by decide
  obtain ⟨-, htimes, hfixed⟩ := (conversions_settle tokens).1 hflat
  have hform : settled tokens = form := (Except.ok.inj (htimes 6 (Nat.le_refl 6))).symm
  rw [hform] at hfixed
  exact ⟨hflat, rfl, rfl, hform, hfixed⟩

end Polish
