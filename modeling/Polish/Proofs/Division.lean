/-
**Division at the loosest connective.**

A conversion reads its input once and decides about every token when it comes, with nothing but a
stack to remember the others by.  Whoever sees all of the input can do without a stack: the loosest
connective outside of all parentheses comes last in the postfix form, and what stands before it and
what stands behind it can be treated on their own.  Of several that are equally loose it is the
last, for connectives group to the left.  Where no connective is left, the tokens are taken one by
one, and a group as if it were one.  The two ways lead to the same postfix form, whether or not the
tokens are an expression, as long as their parentheses match.

Main definitions:

* `Polish.outerFrom`, `Polish.outer` — the connectives outside of all parentheses;
* `Polish.IsPivot`, `Polish.pivotFrom?` — the last of the loosest of them, and how to find it;
* `Polish.ByDivision` — **the rules of division**, for a function that gives postfix forms;
* `Polish.divide` — a function that follows them.

Main results:

* `Polish.pivotFrom?_eq_some_iff`, `Polish.pivotFrom?_eq_none_iff` — the pivot is found if there is
  a connective outside of all parentheses, and it is the only one;
* `Polish.byDivision_divide` — the rules of division can be followed;
* `Polish.ByDivision.finds` — whoever follows them finds what the conversion adds;
* `Polish.convert_eq_division` — **a conversion is a division** at the loosest connectives.
-/

import Polish.Proofs.Balance
import Polish.Proofs.Listing

set_option relaxedAutoImplicit false
set_option autoImplicit false

namespace Polish

/-! ### Connectives outside of all parentheses -/

/-- The connective that a token is, if it is one and stands outside of all parentheses.  The tokens
before it have the excess `e`. -/
def Token.outer? (e : Int) : Token → Option Connective
  | .operator (.binary c) => if e = 0 then some c else none
  | _ => none

/-- The connectives of some tokens **outside of all parentheses**, from left to right, when the
tokens before have the excess `e`. -/
def outerFrom (e : Int) : List Token → List Connective
  | [] => []
  | t :: ts => (t.outer? e).toList ++ outerFrom (e + t.weight) ts

/-- The connectives of some tokens outside of all parentheses, from left to right. -/
def outer (ts : List Token) : List Connective := outerFrom 0 ts

theorem Token.outer?_eq_some_iff {e : Int} {t : Token} {c : Connective} :
    t.outer? e = some c ↔ t = .operator (.binary c) ∧ e = 0 := by
  unfold outer?
  split
  · next d => by_cases h : e = 0 <;> simp [h]
  · next hne =>
      simp only [reduceCtorEq, false_iff, not_and]
      rintro rfl
      exact absurd rfl (hne c)

theorem outerFrom_append (e : Int) (ts us : List Token) :
    outerFrom e (ts ++ us) = outerFrom e ts ++ outerFrom (e + excess ts) us := by
  induction ts generalizing e with
  | nil => simp [outerFrom]
  | cons t ts ih =>
      rw [List.cons_append, outerFrom, outerFrom, ih, excess_cons, Int.add_assoc, List.append_assoc]

/-- Behind tokens without excess stand connectives of the whole. -/
theorem outer_append {ts us : List Token} (h : excess ts = 0) :
    outer (ts ++ us) = outer ts ++ outer us := by
  rw [outer, outerFrom_append, h]
  rfl

/-- Inside of parentheses no connective is outside of all of them. -/
theorem outerFrom_eq_nil {e : Int} {ts : List Token} (he : e < 0) (h : Opened ts) :
    outerFrom e ts = [] := by
  induction ts using List.reverseRecOn with
  | nil => rfl
  | append_singleton ts t ih =>
      obtain ⟨hts, -⟩ := opened_concat_iff.1 h
      have hle := hts.excess_le
      have hnone : t.outer? (e + excess ts) = none := by
        rw [Option.eq_none_iff_forall_ne_some]
        intro c hc
        have hzero := (Token.outer?_eq_some_iff.1 hc).2
        omega
      rw [outerFrom_append, ih hts, outerFrom, hnone]
      rfl

/-- A group has no connective outside of all parentheses. -/
theorem outer_group {gs : List Token} (h : Matched gs) (ts : List Token) :
    outer (.leftParen :: gs ++ .rightParen :: ts) = outer ts := by
  have hinner : outer (.leftParen :: gs ++ [.rightParen]) = [] := by
    change outerFrom (0 + -1) (gs ++ [.rightParen]) = []
    rw [outerFrom_append, outerFrom_eq_nil (by decide) h.1]
    rfl
  rw [List.append_cons, outer_append (excess_group h), hinner, List.nil_append]

/-! ### The pivot -/

/-- A connective with the tokens before it and the tokens behind it. -/
structure Pivot where
  before : List Token
  connective : Connective
  behind : List Token

namespace Pivot

/-- The same with one more token before. -/
def cons (t : Token) (p : Pivot) : Pivot := { p with before := t :: p.before }

/-- All the tokens. -/
def tokens (p : Pivot) : List Token := p.before ++ .operator (.binary p.connective) :: p.behind

end Pivot

/-- The pivot `p` is **the last of the loosest connectives** of `ts` outside of all parentheses,
when the tokens before have the excess `e`. -/
structure IsPivot (e : Int) (ts : List Token) (p : Pivot) : Prop where
  tokens : ts = p.tokens
  outside : e + excess p.before = 0
  loosest : ∀ c ∈ outerFrom e p.before, p.connective.precedence ≤ c.precedence
  last : ∀ c ∈ outer p.behind, p.connective.precedence < c.precedence

/-- Looks for the last of the loosest connectives outside of all parentheses. -/
def pivotFrom? (e : Int) : List Token → Option Pivot
  | [] => none
  | t :: ts =>
    match t.outer? e, pivotFrom? (e + t.weight) ts with
    | none, p => p.map (Pivot.cons t)
    | some c, none => some ⟨[], c, ts⟩
    -- one that stands further to the left has to be looser
    | some c, some p =>
      some (if c.precedence < p.connective.precedence then ⟨[], c, ts⟩ else p.cons t)

/-- A pivot is found if there is a connective outside of all parentheses. -/
theorem pivotFrom?_eq_none_iff {e : Int} {ts : List Token} :
    pivotFrom? e ts = none ↔ outerFrom e ts = [] := by
  induction ts generalizing e with
  | nil => simp [pivotFrom?, outerFrom]
  | cons t ts ih =>
      rw [pivotFrom?, outerFrom, List.append_eq_nil_iff, ← ih]
      cases t.outer? e with
      | none => simp
      | some c => cases pivotFrom? (e + t.weight) ts <;> simp

/-- A connective outside of all parentheses is a pivot if all others behind it are tighter. -/
theorem isPivot_of_outer? {e : Int} {t : Token} {ts : List Token} {c : Connective}
    (h : t.outer? e = some c) (hlast : ∀ d ∈ outer ts, c.precedence < d.precedence) :
    IsPivot e (t :: ts) ⟨[], c, ts⟩ where
  tokens := by
    rw [(Token.outer?_eq_some_iff.1 h).1]
    rfl
  outside := by
    rw [(Token.outer?_eq_some_iff.1 h).2]
    rfl
  loosest := by simp [outerFrom]
  last := hlast

/-- A connective outside of all parentheses has no weight. -/
theorem outerFrom_of_outer? {e : Int} {t : Token} {c : Connective} (h : t.outer? e = some c)
    (ts : List Token) : outerFrom (e + t.weight) ts = outer ts := by
  obtain ⟨rfl, rfl⟩ := Token.outer?_eq_some_iff.1 h
  rfl

namespace IsPivot

variable {e : Int} {t : Token} {ts : List Token} {p : Pivot}

theorem outerFrom_eq (h : IsPivot e ts p) :
    outerFrom e ts = outerFrom e p.before ++ p.connective :: outer p.behind := by
  have hself : (Token.operator (.binary p.connective)).outer? 0 = some p.connective := rfl
  rw [h.tokens, Pivot.tokens, outerFrom_append, h.outside, outerFrom, hself,
    outerFrom_of_outer? hself]
  rfl

theorem length_eq (h : IsPivot e ts p) : ts.length = p.before.length + p.behind.length + 1 := by
  rw [h.tokens, Pivot.tokens, List.length_append, List.length_cons]
  omega

/-- No connective outside of all parentheses is looser than the pivot. -/
theorem precedence_le (h : IsPivot e ts p) :
    ∀ c ∈ outerFrom e ts, p.connective.precedence ≤ c.precedence := by
  intro c hc
  rw [h.outerFrom_eq, List.mem_append, List.mem_cons] at hc
  rcases hc with hc | rfl | hc
  · exact h.loosest c hc
  · exact Nat.le_refl _
  · exact Nat.le_of_lt (h.last c hc)

theorem connective_mem (h : IsPivot e ts p) : p.connective ∈ outerFrom e ts := by
  rw [h.outerFrom_eq]
  exact List.mem_append_right _ List.mem_cons_self

/-- A pivot stays one when a token is put before all others that is no looser connective. -/
theorem cons (h : IsPivot (e + t.weight) ts p)
    (ht : ∀ c ∈ t.outer? e, p.connective.precedence ≤ c.precedence) :
    IsPivot e (t :: ts) (p.cons t) where
  tokens := congrArg (t :: ·) h.tokens
  outside := by
    have hzero := h.outside
    rw [Pivot.cons, excess_cons]
    omega
  loosest := by
    intro c hc
    rw [Pivot.cons, outerFrom, List.mem_append, Option.mem_toList] at hc
    rcases hc with hc | hc
    · exact ht c hc
    · exact h.loosest c hc
  last := h.last

/-- The first token is the pivot, or the pivot is one of the others. -/
theorem cases_cons (h : IsPivot e (t :: ts) p) :
    (∃ c, p = ⟨[], c, ts⟩ ∧ t.outer? e = some c ∧ ∀ d ∈ outer ts, c.precedence < d.precedence) ∨
    ∃ q : Pivot, p = q.cons t ∧ IsPivot (e + t.weight) ts q ∧
      ∀ c ∈ t.outer? e, q.connective.precedence ≤ c.precedence := by
  obtain ⟨before, c, behind⟩ := p
  obtain ⟨htokens, houtside, hloosest, hlast⟩ := h
  cases before with
  | nil =>
      obtain ⟨rfl, rfl⟩ := List.cons.inj htokens
      rw [excess_nil, Int.add_zero] at houtside
      exact .inl ⟨c, rfl, Token.outer?_eq_some_iff.2 ⟨rfl, houtside⟩, hlast⟩
  | cons u before =>
      obtain ⟨rfl, rfl⟩ := List.cons.inj htokens
      refine .inr ⟨⟨before, c, behind⟩, rfl, ⟨rfl, ?_, fun d hd => ?_, hlast⟩, fun d hd => ?_⟩
      · change e + excess (t :: before) = 0 at houtside
        rw [excess_cons] at houtside
        change e + t.weight + excess before = 0
        omega
      · exact hloosest d (List.mem_append_right _ hd)
      · exact hloosest d (List.mem_append_left _ (Option.mem_toList.2 hd))

end IsPivot

theorem isPivot_of_pivotFrom? {e : Int} {ts : List Token} {p : Pivot}
    (h : pivotFrom? e ts = some p) : IsPivot e ts p := by
  induction ts generalizing e p with
  | nil => cases h
  | cons t ts ih =>
      rw [pivotFrom?] at h
      cases hc : t.outer? e with
      | none =>
          rw [hc] at h
          obtain ⟨q, hq, rfl⟩ := Option.map_eq_some_iff.1 h
          exact (ih hq).cons (by simp [hc])
      | some c =>
          rw [hc] at h
          cases hq : pivotFrom? (e + t.weight) ts with
          | none =>
              rw [hq] at h
              cases h
              have hnil := pivotFrom?_eq_none_iff.1 hq
              rw [outerFrom_of_outer? hc] at hnil
              exact isPivot_of_outer? hc (by simp [hnil])
          | some q =>
              rw [hq] at h
              cases h
              split
              · next hlt =>
                  refine isPivot_of_outer? hc fun d hd => ?_
                  rw [← outerFrom_of_outer? hc] at hd
                  exact Nat.lt_of_lt_of_le hlt ((ih hq).precedence_le d hd)
              · next hge => exact (ih hq).cons (by simp [hc]; omega)

theorem IsPivot.pivotFrom?_eq {e : Int} {ts : List Token} {p : Pivot} (h : IsPivot e ts p) :
    pivotFrom? e ts = some p := by
  induction ts generalizing e p with
  | nil =>
      have hlength := h.length_eq
      simp at hlength
  | cons t ts ih =>
      rw [pivotFrom?]
      obtain ⟨c, rfl, hc, hlast⟩ | ⟨q, rfl, hq, hle⟩ := h.cases_cons
      · rw [hc]
        cases hq : pivotFrom? (e + t.weight) ts with
        | none => rfl
        | some q =>
            have hmem := (isPivot_of_pivotFrom? hq).connective_mem
            rw [outerFrom_of_outer? hc] at hmem
            simp only [if_pos (hlast _ hmem)]
      · rw [ih hq]
        cases hc : t.outer? e with
        | none => rfl
        | some c => simp only [if_neg (Nat.not_lt.2 (hle c hc))]

/-- What is found **is the pivot**. -/
theorem pivotFrom?_eq_some_iff {e : Int} {ts : List Token} {p : Pivot} :
    pivotFrom? e ts = some p ↔ IsPivot e ts p :=
  ⟨isPivot_of_pivotFrom?, IsPivot.pivotFrom?_eq⟩

/-! ### The rules of division -/

/-- The function `R` finds the postfix forms of matched tokens **by division**.  Around the last of
the loosest connectives outside of all parentheses it treats both sides on their own.  Where there
is none, it takes the first token alone, or the first group. -/
structure ByDivision (R : List Token → List Token) : Prop where
  connective : ∀ (c : Connective) (ls rs : List Token), Matched ls → Matched rs →
    (∀ d ∈ outer ls, c.precedence ≤ d.precedence) → (∀ d ∈ outer rs, c.precedence < d.precedence) →
    R (ls ++ .operator (.binary c) :: rs) = R ls ++ R rs ++ [.operator (.binary c)]
  nil : R [] = []
  operand : ∀ (text : String) (ts : List Token), Matched ts → outer ts = [] →
    R (.operand text :: ts) = .operand text :: R ts
  group : ∀ gs ts : List Token, Matched gs → Matched ts → outer ts = [] →
    R (.leftParen :: gs ++ .rightParen :: ts) = R gs ++ R ts
  neg : ∀ ts : List Token, Matched ts → outer ts = [] →
    R (.operator .neg :: ts) = R ts ++ [.operator .neg]

/-- The postfix form of some tokens, **found by division**.  Tokens that do not match have no
postfix form, and what is found for them does not matter. -/
def divide (ts : List Token) : List Token :=
  match h : pivotFrom? 0 ts with
  | some p => divide p.before ++ divide p.behind ++ [.operator (.binary p.connective)]
  | none =>
    match ts with
    | [] => []
    | .operand text :: us => .operand text :: divide us
    | .operator o :: us => divide us ++ [.operator o]
    | .leftParen :: us =>
      -- the partner is the first right parenthesis that has none behind the left one
      match breach? us with
      | some n => divide (us.take (n - 1)) ++ divide (us.drop n)
      | none => divide us
    | .rightParen :: us => divide us
termination_by ts.length
decreasing_by
  · have hlength := (pivotFrom?_eq_some_iff.1 h).length_eq
    omega
  · have hlength := (pivotFrom?_eq_some_iff.1 h).length_eq
    omega
  all_goals simp only [List.length_cons, List.length_take, List.length_drop]; omega

theorem divide_of_isPivot {ts : List Token} {p : Pivot} (h : IsPivot 0 ts p) :
    divide ts = divide p.before ++ divide p.behind ++ [.operator (.binary p.connective)] := by
  have hp := pivotFrom?_eq_some_iff.2 h
  rw [divide]
  split
  · next q hq =>
      obtain rfl := Option.some.inj (hq.symm.trans hp)
      rfl
  · next hq => cases hq.symm.trans hp

/-- The rules of division **can be followed**. -/
theorem byDivision_divide : ByDivision divide where
  connective := by
    intro c ls rs hls _ hloosest hlast
    exact divide_of_isPivot (p := ⟨ls, c, rs⟩) ⟨rfl, by simpa using hls.2, hloosest, hlast⟩
  nil := by
    rw [divide]
    rfl
  operand := by
    intro text ts _ hts
    have hp : pivotFrom? 0 (.operand text :: ts) = none := pivotFrom?_eq_none_iff.2 hts
    rw [divide]
    split
    · next hq => cases hq.symm.trans hp
    · rfl
  group := by
    intro gs ts hgs _ hts
    have hp : pivotFrom? 0 (.leftParen :: (gs ++ .rightParen :: ts)) = none :=
      pivotFrom?_eq_none_iff.2 ((outer_group hgs ts).trans hts)
    have hbreach : breach? (gs ++ .rightParen :: ts) = some (gs.length + 1) :=
      breach?_eq_some_iff.2 (isBreach_iff.2 ⟨gs, ts, rfl, hgs, rfl⟩)
    rw [List.cons_append, divide]
    split
    · next hq => cases hq.symm.trans hp
    · have hbehind : (gs ++ .rightParen :: ts).drop (gs.length + 1) = ts := by
        rw [List.append_cons]
        exact List.drop_left' (by simp)
      simp only [hbreach, Nat.add_sub_cancel, List.take_left, hbehind]
  neg := by
    intro ts _ hts
    have hp : pivotFrom? 0 (.operator .neg :: ts) = none := pivotFrom?_eq_none_iff.2 hts
    rw [divide]
    split
    · next hq => cases hq.symm.trans hp
    · rfl

/-! ### A conversion is a division -/

/-- A pivot divides matched tokens into matched tokens. -/
theorem IsPivot.matched {ts : List Token} {p : Pivot} (hp : IsPivot 0 ts p) (h : Matched ts) :
    Matched p.before ∧ Matched p.behind := by
  have houtside := hp.outside
  rw [Int.zero_add] at houtside
  rw [hp.tokens, Pivot.tokens, matched_append_iff houtside] at h
  exact ⟨h.1, h.2.tail rfl⟩

/-- What `R` finds for the tokens `ts` is **what the conversion adds**, over every stack where
nothing gives way to their connectives outside of all parentheses. -/
def Finds (R : List Token → List Token) (ts : List Token) : Prop :=
  ∀ n ≤ 4, (∀ c ∈ outer ts, n ≤ c.precedence) → Adds n ts (R ts)

namespace ByDivision

variable {R : List Token → List Token}

theorem finds_nil (hR : ByDivision R) : Finds R [] := by
  intro n _ _
  rw [hR.nil]
  exact Adds.nil n

theorem finds_operand (hR : ByDivision R) {text : String} {ts : List Token} (hts : Matched ts)
    (houter : outer ts = []) (h : Finds R ts) : Finds R (.operand text :: ts) := by
  intro n hn hle
  rw [hR.operand text ts hts houter]
  exact (h n hn hle).operand text

/-- A negation with no connective behind it waits for all that follows. -/
theorem finds_neg (hR : ByDivision R) {ts : List Token} (hts : Matched ts) (houter : outer ts = [])
    (h : Finds R ts) : Finds R (.operator .neg :: ts) := by
  intro n hn _
  rw [hR.neg ts hts houter]
  exact (h 4 (Nat.le_refl 4) (by simp [houter])).neg.loosen hn

theorem finds_group (hR : ByDivision R) {gs ts : List Token} (hgs : Matched gs) (hts : Matched ts)
    (houter : outer ts = []) (h : Finds R gs) (h' : Finds R ts) :
    Finds R (.leftParen :: gs ++ .rightParen :: ts) := by
  intro n hn _
  rw [hR.group gs ts hgs hts houter]
  exact (h 0 (Nat.zero_le 4) fun _ _ => Nat.zero_le _).group (h' n hn (by simp [houter]))

/-- The pivot guards what stands behind it, and all that stands before it gives way to the pivot. -/
theorem finds_of_isPivot (hR : ByDivision R) {ts : List Token} {p : Pivot} (hp : IsPivot 0 ts p)
    (hts : Matched ts) (h : Finds R p.before) (h' : Finds R p.behind) : Finds R ts := by
  intro n _ hle
  obtain ⟨hbefore, hbehind⟩ := hp.matched hts
  have hc := p.connective.precedence_le
  have hadds := (h _ (by omega) hp.loosest).binary p.connective (h' _ (by omega) hp.last)
  rw [← hR.connective _ _ _ hbefore hbehind hp.loosest hp.last, ← Pivot.tokens, ← hp.tokens]
    at hadds
  exact hadds.loosen (hle _ hp.connective_mem)

/-- Whoever follows the rules of division **finds what the conversion adds**. -/
theorem finds (hR : ByDivision R) {ts : List Token} (h : Matched ts) : Finds R ts := by
  induction hlen : ts.length using Nat.strongRecOn generalizing ts with
  | ind len ih =>
      subst hlen
      cases hfound : pivotFrom? 0 ts with
      | some p =>
          have hp := pivotFrom?_eq_some_iff.1 hfound
          have hlength := hp.length_eq
          obtain ⟨hbefore, hbehind⟩ := hp.matched h
          exact hR.finds_of_isPivot hp h (ih _ (by omega) hbefore rfl) (ih _ (by omega) hbehind rfl)
      | none =>
          have houter : outer ts = [] := pivotFrom?_eq_none_iff.1 hfound
          cases ts with
          | nil => exact hR.finds_nil
          | cons t us =>
              cases t with
              | operand text =>
                  have hus : Matched us := h.tail rfl
                  exact hR.finds_operand hus houter (ih _ (Nat.lt_succ_self _) hus rfl)
              | operator o =>
                  have hus : Matched us := h.tail rfl
                  cases o with
                  | binary c => cases houter
                  | neg => exact hR.finds_neg hus houter (ih _ (Nat.lt_succ_self _) hus rfl)
              | leftParen =>
                  obtain ⟨gs, vs, rfl, hgs, hvs⟩ := h.exists_group
                  have hvouter : outer vs = [] := (outer_group hgs vs).symm.trans houter
                  have hlength : (Token.leftParen :: (gs ++ .rightParen :: vs)).length =
                      gs.length + vs.length + 2 := by
                    simp only [List.length_cons, List.length_append]
                    omega
                  exact hR.finds_group hgs hvs hvouter (ih gs.length (by omega) hgs rfl)
                    (ih vs.length (by omega) hvs rfl)
              | rightParen => exact absurd h (not_matched_rightParen us)

end ByDivision

/-- **A conversion of matched tokens is a division** at the loosest connectives, whether or not the
tokens are an expression: there are functions that follow the rules of division, and all of them
find its postfix form. -/
theorem convert_eq_division :
    ByDivision divide ∧
      ∀ R, ByDivision R → ∀ ts, Matched ts → convert ts = .ok (R ts) :=
  ⟨byDivision_divide, fun _ hR _ h =>
    (hR.finds h 0 (Nat.zero_le 4) fun _ _ => Nat.zero_le _).convert⟩

/-- Tokens that are no expression: two equally loose connectives without all of their operands, a
negation behind its operand, and a group in which another pivot is hidden. -/
theorem convert_eq_division_stray :
    let tokens := [Token.operator .neg, .operand "a", .operator (.binary .conj), .leftParen,
      .operand "b", .operator (.binary .disj), .rightParen, .operand "c", .operator .neg,
      .operator (.binary .conj), .operator (.binary .less)]
    Matched tokens ∧
      divide tokens = [.operand "a", .operator .neg, .operand "b", .operator (.binary .disj),
        .operand "c", .operator .neg, .operator (.binary .conj), .operator (.binary .less),
        .operator (.binary .conj)] := by
  intro tokens
  have hmatched : Matched tokens := by decide
  obtain ⟨hdivide, hconvert⟩ := convert_eq_division
  refine ⟨hmatched, ?_⟩
  exact (Except.ok.inj (hconvert divide hdivide tokens hmatched)).symm

end Polish
