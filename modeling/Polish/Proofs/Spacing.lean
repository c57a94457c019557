/-
**Where spacing matters.**

Blanks may be put between tokens and taken away again, and the tokens stay the same, as long as some
blank is left between two operands.  Nothing else may be changed.  So every text can be reduced:
blanks go where they stand at an end of the text or beside a reserved character, and wherever else
some stand, one space takes their place.  The reduced text depends on the tokens alone, for a text
that spells them becomes their own texts with a space where two operands meet and no other blank.

Main definitions:

* `Polish.squeeze`, `Polish.reduce` — a text **with no more blanks than it needs**;
* `Polish.spaced` — some tokens written with no more blanks than they need.

Main results:

* `Polish.squeeze_run` — what becomes of a run of blanks;
* `Polish.Spells.squeeze_eq` — what spells some tokens is reduced to these tokens;
* `Polish.tokenize_reduce` — the reduced text has the same tokens;
* `Polish.tokenize_eq_iff_reduce_eq` — **texts with the same tokens** are those that are reduced to
  the same text.
-/

import Polish.Proofs.Cutting

set_option relaxedAutoImplicit false
set_option autoImplicit false

namespace Polish

/-! ### Reducing a text -/

/-- Whether blanks may be missing beside a neighbour: it is reserved, or there is none. -/
def needsNoBlank (neighbour : Option Char) : Bool := neighbour.all isReserved

/-- The characters `cs` with no more blanks than they need, where `before` is the last character in
front of them that is not blank.  A run of blanks goes if it has a neighbour that needs none, and
becomes one space if not. -/
def squeeze (before : Option Char) : (cs : List Char) → List Char
  | [] => []
  | c :: cs =>
    if isBlank c then
      -- a run is judged at its last blank, where both of its neighbours are known
      if cs.head?.any isBlank || needsNoBlank before || needsNoBlank cs.head? then squeeze before cs
      else ' ' :: squeeze before cs
    else c :: squeeze (some c) cs

/-- A text with **no more blanks than it needs**. -/
def reduce (s : String) : String := String.ofList (squeeze none s.toList)

theorem squeeze_cons_of_not_isBlank {c : Char} (h : isBlank c = false) (before : Option Char)
    (cs : List Char) : squeeze before (c :: cs) = c :: squeeze (some c) cs := by
  rw [squeeze, if_neg (Bool.eq_false_iff.1 h)]

/-- A **run of blanks** goes if a neighbour of it needs none, and becomes one space if not. -/
theorem squeeze_run {w cs : List Char} (hw : allBlank w = true) (hne : w ≠ [])
    (hcs : ∀ c ∈ cs.head?, isBlank c = false) (before : Option Char) :
    squeeze before (w ++ cs) =
      (if needsNoBlank before || needsNoBlank cs.head? then [] else [' ']) ++
        squeeze before cs := by
  induction w with
  | nil => exact absurd rfl hne
  | cons b w ih =>
      obtain ⟨hb, hw⟩ := Spells.allBlank_cons.1 hw
      rw [List.cons_append, squeeze, if_pos hb]
      cases w with
      | nil =>
          have hstop : cs.head?.any isBlank = false := by
            cases hhead : cs.head? with
            | none => rfl
            | some c => exact hcs c hhead
          rw [List.nil_append, hstop, Bool.false_or]
          split <;> rfl
      | cons b' w =>
          have hmore : ((b' :: w) ++ cs).head?.any isBlank = true := (Spells.allBlank_cons.1 hw).1
          rw [hmore, Bool.true_or, Bool.true_or, if_pos rfl]
          exact ih hw (List.cons_ne_nil b' w)

theorem squeeze_allBlank {w : List Char} (hw : allBlank w = true) (before : Option Char) :
    squeeze before w = [] := by
  by_cases hne : w = []
  · rw [hne, squeeze]
  · have hrun := @squeeze_run w [] hw hne (fun _ hc => nomatch hc) before
    rwa [List.append_nil, show needsNoBlank ([] : List Char).head? = true from rfl, Bool.or_true,
      if_pos rfl] at hrun

/-- What holds no blank stays. -/
theorem squeeze_append {xs : List Char} (hxs : ∀ c ∈ xs, isBlank c = false) (hne : xs ≠ [])
    (before : Option Char) (cs : List Char) :
    squeeze before (xs ++ cs) = xs ++ squeeze xs.getLast? cs := by
  induction xs generalizing before with
  | nil => exact absurd rfl hne
  | cons x xs ih =>
      rw [List.cons_append, squeeze_cons_of_not_isBlank (hxs x List.mem_cons_self)]
      cases xs with
      | nil => rfl
      | cons x' xs =>
          rw [ih (fun c hc => hxs c (List.mem_cons_of_mem x hc)) (List.cons_ne_nil x' xs),
            List.getLast?_cons_cons]
          rfl

/-! ### The text of some tokens -/

/-- Some tokens written with **no more blanks than they need**: one space between two operands. -/
def spaced : List Token → List Char
  | [] => []
  | t :: ts => t.text.toList ++ ((if operandsMeet (t :: ts) then [' '] else []) ++ spaced ts)

/-- The tokens are spelled that way. -/
theorem spells_spaced {ts : List Token} (hts : ∀ t ∈ ts, t.isPlain = true) :
    Spells ts (spaced ts) := by
  induction ts with
  | nil => exact Spells.nil rfl
  | cons t ts ih =>
      have ht := hts t List.mem_cons_self
      have ih' := ih fun u hu => hts u (List.mem_cons_of_mem t hu)
      rw [spaced]
      split
      · have hall := @Spells.cons [] [' '] _ t ts rfl ht rfl (fun _ => List.cons_ne_nil _ _) ih'
        rwa [List.nil_append, List.append_assoc] at hall
      · next hmeet => exact ih'.adjoin ht (Bool.eq_false_iff.2 hmeet)

/-! ### From a spelling to the text of its tokens -/

/-- Only behind an operand may blanks be needed. -/
theorem needsNoBlank_getLast? {t : Token} (h : t.isPlain = true) :
    needsNoBlank t.text.toList.getLast? = !t.isOperand := by
  rw [List.getLast?_eq_some_getLast (Token.toList_text_ne_nil h)]
  exact Token.isReserved_of_mem h (List.getLast_mem _)

/-- Blanks in front of a token: they go unless the token is an operand and there is something before
them that is not reserved. -/
theorem squeeze_token {w cs : List Char} {t : Token} (hw : allBlank w = true)
    (ht : t.isPlain = true) (before : Option Char) :
    squeeze before (w ++ (t.text.toList ++ cs)) =
      (if w.isEmpty || needsNoBlank before || !t.isOperand then [] else [' ']) ++
        (t.text.toList ++ squeeze t.text.toList.getLast? cs) := by
  obtain ⟨c, ds, htext, hc⟩ := Token.exists_first ht
  have hhead : (t.text.toList ++ cs).head? = some c := by
    rw [htext]
    rfl
  have hstay := squeeze_append (fun _ hd => Token.not_isBlank_of_mem ht hd)
    (Token.toList_text_ne_nil ht) before cs
  cases w with
  | nil => exact hstay
  | cons b w =>
      have hfirst : needsNoBlank (some c) = !t.isOperand :=
        Token.isReserved_of_mem ht (by rw [htext]; exact List.mem_cons_self)
      have hstop : ∀ d ∈ (t.text.toList ++ cs).head?, isBlank d = false := by
        rw [hhead]
        rintro d ⟨⟩
        exact hc
      rw [squeeze_run hw (List.cons_ne_nil b w) hstop, hhead, hfirst, hstay]
      rfl

/-- Behind a token, blanks and a spelling are reduced to a space, **if two operands meet**, and the
tokens that are spelled. -/
theorem Spells.squeeze_behind {t : Token} {ts : List Token} {v cs : List Char}
    (ht : t.isPlain = true) (hv : allBlank v = true)
    (hmeet : operandsMeet (t :: ts) = true → v ≠ []) (h : Spells ts cs) :
    squeeze t.text.toList.getLast? (v ++ cs) =
      (if operandsMeet (t :: ts) then [' '] else []) ++ spaced ts := by
  induction h generalizing t v with
  | nil hw => exact squeeze_allBlank (allBlank_append.2 ⟨hv, hw⟩) _
  | @cons w gap cs u us hw hu hg hm hs ih =>
      have hmissing : ((v ++ w).isEmpty || needsNoBlank t.text.toList.getLast? || !u.isOperand) =
          !operandsMeet (t :: u :: us) := by
        rw [needsNoBlank_getLast? ht, Bool.or_assoc, ← Bool.not_and]
        cases hboth : operandsMeet (t :: u :: us) with
        | false => rw [show (t.isOperand && u.isOperand) = false from hboth, Bool.not_false,
            Bool.or_true]
        | true =>
            have hkept : (v ++ w).isEmpty = false := by simp [hmeet hboth]
            rw [show (t.isOperand && u.isOperand) = true from hboth, hkept]
            rfl
      have hgap : v ++ (w ++ u.text.toList ++ gap ++ cs) =
          (v ++ w) ++ (u.text.toList ++ (gap ++ cs)) := by
        simp only [List.append_assoc]
      rw [hgap, squeeze_token (allBlank_append.2 ⟨hv, hw⟩) hu, hmissing, ih hu hg hm, spaced]
      cases operandsMeet (t :: u :: us) <;> rfl

/-- What spells some tokens **is reduced to these tokens**. -/
theorem Spells.squeeze_eq {ts : List Token} {cs : List Char} (h : Spells ts cs) :
    squeeze none cs = spaced ts := by
  cases h with
  | nil hw => exact squeeze_allBlank hw none
  | @cons w gap cs t ts hw ht hg hm hs =>
      rw [List.append_assoc, List.append_assoc, squeeze_token hw ht, hs.squeeze_behind ht hg hm,
        show needsNoBlank none = true from rfl, Bool.or_true, Bool.true_or, if_pos rfl]
      rfl

/-! ### Texts with the same tokens -/

/-- The reduced text is the text of the tokens. -/
theorem reduce_eq (s : String) : reduce s = String.ofList (spaced (tokenize s)) := by
  rw [reduce, (spells_tokenize s).squeeze_eq]

/-- The reduced text **has the same tokens**. -/
theorem tokenize_reduce (s : String) : tokenize (reduce s) = tokenize s := by
  refine tokenize_of_spells ?_
  rw [reduce_eq, String.toList_ofList]
  exact spells_spaced (spells_tokenize s).isPlain

/-- **Texts with the same tokens** are those that are reduced to the same text. -/
theorem tokenize_eq_iff_reduce_eq (s t : String) :
    tokenize s = tokenize t ↔ reduce s = reduce t := by
  constructor
  · intro h
    rw [reduce_eq, reduce_eq, h]
  · intro h
    rw [← tokenize_reduce s, ← tokenize_reduce t, h]

example : reduce "\t( ab  c ) & \u00a0!d\n" = "(ab c)&!d" := by decide

end Polish
