/-
**Nothing is lost on the way, and operators move to the right alone.**

A conversion that succeeds drops the parentheses and puts the other tokens in the order of their
emission.  Since that is an order of positions and not of values, it says where every single
occurrence goes.  Operands are emitted in the moment they are read, so they stay in their order, and
an operator is emitted later than it is read, so it never overtakes an operand that stands before
it.  Of two connectives of one precedence in one group the second releases the first, so they stay
in their order too.

Main definitions:

* `Polish.Conserves` — a correspondence between the positions of the input and of the output that
  **keeps tokens and these orders**.

Main results:

* `Polish.emission_operator_gt`, `Polish.before_of_equal_precedence` — what the law of emission says
  about two positions;
* `Polish.tokensAt_emissionOrder_perm`, `Polish.filter_isOperand_tokensAt` — the output has the same
  operands and operators, and the operands in the same order;
* `Polish.conserves_emissionOrder` — the order of emission is such a correspondence;
* `Polish.convert_conserves` — **every conversion that succeeds conserves its input**.
-/

import Polish.Proofs.EmissionOrder
import Polish.Spelling

set_option relaxedAutoImplicit false
set_option autoImplicit false

namespace Polish

/-- The function `place` is a correspondence between the operands and operators of `ts`, by their
positions, and all positions of `out`.  It keeps every token and the order of the operands, it takes
no operator to the left of an operand that stood before it, and it keeps the order of connectives of
one precedence in one group. -/
structure Conserves (ts out : List Token) (place : Nat → Nat) : Prop where
  kept : ∀ i, isProper ts i = true → out[place i]? = ts[i]?
  injective : ∀ i j, isProper ts i = true → isProper ts j = true → place i = place j → i = j
  onto : ∀ k < out.length, ∃ i, isProper ts i = true ∧ place i = k
  operands : ∀ i j text text', ts[i]? = some (.operand text) → ts[j]? = some (.operand text') →
    i < j → place i < place j
  rightward : ∀ i j text o, ts[i]? = some (.operand text) → ts[j]? = some (.operator o) →
    i < j → place i < place j
  equals : ∀ i j (c d : Connective), ts[i]? = some (.operator (.binary c)) →
    ts[j]? = some (.operator (.binary d)) → c.precedence = d.precedence →
    group ts i = group ts j → i < j → place i < place j

/-! ### Two positions -/

section Positions

variable {ts : List Token} {i j : Nat}

/-- An operator is emitted **later than it is read**. -/
theorem emission_operator_gt {o : Operator} (h : ts[j]? = some (.operator o)) :
    j < emission ts j := by
  by_contra hle
  have hj : j < ts.length := (List.getElem?_eq_some_iff.1 h).1
  obtain ⟨k, hk, hr⟩ := (emission_lt_iff h hj).1 (by omega)
  have hlt := (releases_iff.1 hr).1
  omega

theorem before_of_operands {text text' : String} (hi : ts[i]? = some (.operand text))
    (hj : ts[j]? = some (.operand text')) : Before ts i j ↔ i < j := by
  unfold Before
  rw [emission_operand hi, emission_operand hj]
  omega

theorem before_of_operator {text : String} {o : Operator} (hi : ts[i]? = some (.operand text))
    (hj : ts[j]? = some (.operator o)) (hij : i < j) : Before ts i j := by
  have hgt := emission_operator_gt hj
  refine Or.inl ?_
  rw [emission_operand hi]
  omega

/-- Of two connectives of one precedence in one group, the second **releases the first**. -/
theorem before_of_equal_precedence {c d : Connective} (hi : ts[i]? = some (.operator (.binary c)))
    (hj : ts[j]? = some (.operator (.binary d))) (hcd : c.precedence = d.precedence)
    (hgroup : group ts i = group ts j) (hij : i < j) : Before ts i j := by
  have hlen : j < ts.length := (List.getElem?_eq_some_iff.1 hj).1
  have hr : releases ts i j = true :=
    releases_iff.2 ⟨hij, hgroup, _, hi, Or.inl ⟨d, hj, Nat.le_of_eq hcd.symm⟩⟩
  have hlt := (emission_lt_iff (k := j + 1) hi hlen).2 ⟨j, Nat.lt_succ_self j, hr⟩
  have hgt := emission_operator_gt hj
  exact Or.inl (by omega)

end Positions

/-! ### The tokens at some positions -/

section TokensAt

variable {ts : List Token}

theorem tokensAt_cons_of_getElem? {i : Nat} {t : Token} (h : ts[i]? = some t) (ps : List Nat) :
    tokensAt ts (i :: ps) = t :: tokensAt ts ps := by
  rw [tokensAt, List.filterMap_cons, h]
  rfl

theorem getElem?_tokensAt {ps : List Nat} (h : ∀ i ∈ ps, i < ts.length) (k : Nat) :
    (tokensAt ts ps)[k]? = ps[k]?.bind (ts[·]?) := by
  induction ps generalizing k with
  | nil => simp [tokensAt]
  | cons i ps ih =>
      have hi := List.getElem?_eq_getElem (h i List.mem_cons_self)
      rw [tokensAt_cons_of_getElem? hi]
      cases k with
      | zero => simp [hi]
      | succ k => simpa using ih (fun j hj => h j (List.mem_cons_of_mem i hj)) k

theorem filter_tokensAt (p : Token → Bool) (ps : List Nat) :
    (tokensAt ts ps).filter p = tokensAt ts (ps.filter fun i => ts[i]?.any p) := by
  rw [tokensAt, List.filter_filterMap, tokensAt, List.filterMap_filter]
  refine List.filterMap_congr fun i _ => ?_
  cases ts[i]? with
  | none => rfl
  | some t => rfl

theorem tokensAt_range (ts : List Token) : tokensAt ts (List.range ts.length) = ts := by
  refine List.ext_getElem? fun k => ?_
  rw [getElem?_tokensAt fun i hi => List.mem_range.1 hi]
  rcases Nat.lt_or_ge k ts.length with hk | hk
  · rw [List.getElem?_range hk]
    rfl
  · rw [List.getElem?_eq_none (by simpa using hk), List.getElem?_eq_none hk]
    rfl

/-- The tokens of one kind are those at the positions of that kind. -/
theorem tokensAt_filter_range (p : Token → Bool) (ts : List Token) :
    tokensAt ts ((List.range ts.length).filter fun i => ts[i]?.any p) = ts.filter p := by
  rw [← filter_tokensAt, tokensAt_range]

end TokensAt

/-! ### The order of emission -/

section Order

variable (ts : List Token)

/-- The output has **the operands and operators of the input**, each as often. -/
theorem tokensAt_emissionOrder_perm :
    (tokensAt ts (emissionOrder ts)).Perm (ts.filter (!·.isParen)) := by
  rw [← tokensAt_filter_range]
  exact (List.mergeSort_perm _ _).filterMap _

theorem any_isOperand_iff {ts : List Token} {i : Nat} :
    ts[i]?.any (·.isOperand) = true ↔ ∃ text, ts[i]? = some (.operand text) := by
  rcases ts[i]? with _ | t
  · simp
  · cases t <;> simp [Token.isOperand]

/-- The output has **the operands of the input** in the same order. -/
theorem filter_isOperand_tokensAt :
    (tokensAt ts (emissionOrder ts)).filter (·.isOperand) = ts.filter (·.isOperand) := by
  rw [filter_tokensAt, ← tokensAt_filter_range]
  refine congrArg (tokensAt ts) (List.Perm.eq_of_pairwise ?_ ?_
    (List.pairwise_lt_range.filter _) ?_)
  · intro i j _ _ hij hji
    omega
  · refine ((pairwise_before_emissionOrder ts).filter _).imp_of_mem ?_
    intro i j hi hj h
    obtain ⟨text, hi⟩ := any_isOperand_iff.1 (List.mem_filter.1 hi).2
    obtain ⟨text', hj⟩ := any_isOperand_iff.1 (List.mem_filter.1 hj).2
    exact (before_of_operands hi hj).1 h
  · refine (List.perm_ext_iff_of_nodup ((nodup_emissionOrder ts).filter _)
      (List.nodup_range.filter _)).2 fun i => ?_
    rw [List.mem_filter, List.mem_filter, List.mem_range, mem_emissionOrder_iff]
    refine and_congr_left fun h => ?_
    obtain ⟨text, hi⟩ := any_isOperand_iff.1 h
    exact ⟨lt_length_of_isProper, fun _ => isProper_of_operand hi⟩

/-- Who is emitted before whom stands before them in the order of emission. -/
theorem idxOf_lt_of_before {ts : List Token} {i j : Nat} (hi : isProper ts i = true)
    (hj : isProper ts j = true) (h : Before ts i j) :
    (emissionOrder ts).idxOf i < (emissionOrder ts).idxOf j := by
  have hi' := List.idxOf_lt_length_of_mem (mem_emissionOrder_iff.2 hi)
  have hj' := List.idxOf_lt_length_of_mem (mem_emissionOrder_iff.2 hj)
  rcases Nat.lt_trichotomy ((emissionOrder ts).idxOf i) ((emissionOrder ts).idxOf j)
    with hlt | heq | hgt
  · exact hlt
  · obtain rfl := (List.idxOf_inj (mem_emissionOrder_iff.2 hi)).1 heq
    unfold Before at h
    omega
  · have h' := List.pairwise_iff_getElem.1 (pairwise_before_emissionOrder ts) _ _ hj' hi' hgt
    rw [List.getElem_idxOf, List.getElem_idxOf] at h'
    unfold Before at h h'
    omega

/-- The place of every operand and operator **in the order of emission** conserves the input. -/
theorem conserves_emissionOrder :
    Conserves ts (tokensAt ts (emissionOrder ts)) (emissionOrder ts).idxOf := by
  have hget := @getElem?_tokensAt ts (emissionOrder ts) fun i hi =>
    lt_length_of_isProper (mem_emissionOrder_iff.1 hi)
  exact {
    kept := fun i hi => by
      rw [hget, List.getElem?_idxOf (mem_emissionOrder_iff.2 hi)]
      rfl
    injective := fun i j hi _ h => (List.idxOf_inj (mem_emissionOrder_iff.2 hi)).1 h
    onto := fun k hk => by
      have hk' : k < (emissionOrder ts).length :=
        Nat.lt_of_lt_of_le hk (List.length_filterMap_le _ _)
      exact ⟨(emissionOrder ts)[k], mem_emissionOrder_iff.1 (List.getElem_mem hk'),
        (nodup_emissionOrder ts).idxOf_getElem k hk'⟩
    operands := fun i j text text' hi hj hij =>
      idxOf_lt_of_before (isProper_of_operand hi) (isProper_of_operand hj)
        ((before_of_operands hi hj).2 hij)
    rightward := fun i j text o hi hj hij =>
      idxOf_lt_of_before (isProper_of_operand hi) (isProper_of_operator hj)
        (before_of_operator hi hj hij)
    equals := fun i j c d hi hj hcd hgroup hij =>
      idxOf_lt_of_before (isProper_of_operator hi) (isProper_of_operator hj)
        (before_of_equal_precedence hi hj hcd hgroup hij) }

end Order

/-! ### Conversions -/

/-- **Every conversion that succeeds conserves its input**: the output has no parentheses, it has the
operands in their order, its operators correspond to those of the input and never stand to the left
of an operand that stood before them, and it is shorter by the parentheses alone. -/
theorem convert_conserves {ts out : List Token} (h : convert ts = .ok out) :
    (∀ t ∈ out, t.isParen = false) ∧
    out.filter (·.isOperand) = ts.filter (·.isOperand) ∧
    (∃ place, Conserves ts out place) ∧
    out.length + ts.countP (·.isParen) = ts.length := by
  obtain ⟨y, hy, hdepth⟩ := (exists_convert_eq_ok_iff.1 ⟨out, h⟩).exists_reached
  obtain ⟨ps, ws, hsnap⟩ := hy.exists_snapshot []
  rw [List.append_nil] at hsnap
  have hops := hsnap.exists_operator hdepth
  obtain rfl : tokensAt ts (emissionOrder ts) = out := by
    have hout := Except.ok.inj ((convert_of_reached hy hdepth).symm.trans h)
    rw [← hout, ← hsnap.complete hops, tokensAt_append, tokensAt_operators hops, hsnap.moved,
      hsnap.stack]
  have hperm := tokensAt_emissionOrder_perm ts
  refine ⟨fun t ht => ?_, filter_isOperand_tokensAt ts, ⟨_, conserves_emissionOrder ts⟩, ?_⟩
  · simpa using (List.mem_filter.1 (hperm.mem_iff.1 ht)).2
  · have hlen := List.length_eq_countP_add_countP (fun t : Token => t.isParen) (l := ts)
    have hnot : ts.countP (fun t => decide ¬t.isParen = true) = ts.countP (!·.isParen) :=
      List.countP_congr fun t _ => by simp
    rw [hperm.length_eq, ← List.countP_eq_length_filter]
    omega

/-- Negations that are nobody's, an empty group, and two connectives of one precedence. -/
theorem convert_conserves_stray :
    let tokens := [Token.operator (.binary .greater), .operand "a", .operator .neg, .leftParen,
      .rightParen, .operand "b", .operator (.binary .less)]
    let out := [Token.operand "a", .operand "b", .operator .neg, .operator (.binary .greater),
      .operator (.binary .less)]
    convert tokens = .ok out ∧ ∃ place, Conserves tokens out place ∧ place 0 < place 6 := by
  intro tokens out
  have h : convert tokens = .ok out := rfl
  obtain ⟨-, -, ⟨place, hplace⟩, -⟩ := convert_conserves h
  exact ⟨h, place, hplace, hplace.equals 0 6 .greater .less rfl rfl rfl rfl (by decide)⟩

end Polish
