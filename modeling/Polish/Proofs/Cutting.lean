/-
**Cutting undoes spelling, and nothing else.**

A text is cut into the tokens that it spells.  This module adds that every text spells the tokens
into which it is cut, so that the two say the same.  What one step of cutting reads is told in full:
blanks, the text of a token, and perhaps one more blank, which is the gap behind an operand.  Put
together, these pieces are a spelling of the tokens, and no character is left over.

Main definitions:

* `Polish.Lexer.Cuts` — what **one step of cutting** reads and leaves, with one case for reserved
  characters and one for operands.

Main results:

* `Polish.Lexer.next_eq_some_iff` — the relation is the step;
* `Polish.Lexer.Cuts.spells` — a token in front of a spelling is spelled with it;
* `Polish.spells_tokenize` — every text spells its tokens;
* `Polish.Spells.flatMap_text` — a spelling has the characters of its tokens, and blanks;
* `Polish.tokenize_eq_iff_spells` — **cutting a text gives some tokens exactly if it spells them**.
-/

import Polish.Proofs.Spelled

set_option relaxedAutoImplicit false
set_option autoImplicit false

namespace Polish

/-! ### One step -/

namespace Lexer

/-- One step of cutting reads from the characters `cs` the token `t`, and leaves `cs'`: the token is
a reserved character behind blanks, or an operand behind blanks that cannot be longer, and then one
blank behind it is read too. -/
inductive Cuts : (cs : List Char) → (t : Token) → (cs' : List Char) → Prop
  | reserved {w cs : List Char} {t : Token} : allBlank w = true → t.isOperand = false →
      Cuts (w ++ t.text.toList ++ cs) t cs
  | operand {w cs : List Char} {text : String} : allBlank w = true → isOperandText text = true →
      (∀ d ∈ cs.head?, isOperandChar d = false) →
      Cuts (w ++ text.toList ++ cs) (.operand text) (dropBlank cs)

theorem isOperandText_takeWhile {c : Char} {cs : List Char} (hc : isOperandChar c = true) :
    isOperandText (String.ofList ((c :: cs).takeWhile isOperandChar)) = true := by
  rw [isOperandText, String.toList_ofList, List.all_takeWhile, List.takeWhile_cons_of_pos hc]
  rfl

/-- Where an operand stops, no character could have made it longer. -/
theorem not_isOperandChar_head (cs : List Char) :
    ∀ d ∈ (cs.dropWhile isOperandChar).head?, isOperandChar d = false := by
  intro d hd
  have hstop := List.head?_dropWhile_not isOperandChar cs
  rwa [Option.mem_def.1 hd] at hstop

theorem isOperand_of_ofReserved? {c : Char} {t : Token} (h : Token.ofReserved? c = some t) :
    t.isOperand = false := by
  cases t with
  | operand text => exact absurd h (Token.ofReserved?_ne_operand c text)
  | _ => rfl

/-- The relation **is the step**. -/
theorem next_eq_some_iff {cs cs' : List Char} {t : Token} :
    next ⟨cs⟩ = (some t, ⟨cs'⟩) ↔ Cuts cs t cs' := by
  constructor
  · intro h
    have hblank : allBlank (cs.takeWhile isBlank) = true := List.all_takeWhile
    have hsplit := List.takeWhile_append_dropWhile (p := isBlank) (l := cs)
    simp only [next] at h
    split at h
    · simp at h
    · next c ds hds =>
        rw [hds] at hsplit
        rw [← hsplit]
        split at h
        · next u hu =>
            simp only [Prod.mk.injEq, Option.some.injEq, mk.injEq] at h
            obtain ⟨rfl, rfl⟩ := h
            have hcut := @Cuts.reserved _ ds u hblank (isOperand_of_ofReserved? hu)
            have htext : u.text.toList = [c] := by
              rw [Token.text_of_ofReserved? hu]
              exact String.toList_singleton c
            rwa [htext, List.append_assoc, List.singleton_append] at hcut
        · next hc =>
            simp only [Prod.mk.injEq, Option.some.injEq, mk.injEq] at h
            obtain ⟨rfl, rfl⟩ := h
            have hcut := Cuts.operand hblank
              (@isOperandText_takeWhile c ds (isOperandChar_of_next hds hc))
              (not_isOperandChar_head (c :: ds))
            rwa [String.toList_ofList, List.append_assoc, List.takeWhile_append_dropWhile] at hcut
  · intro h
    cases h with
    | reserved hw ht => exact next_reserved hw ht
    | operand hw ht hstop => exact next_operand hw ht hstop

theorem allBlank_of_next_eq_none {cs : List Char} {l : Lexer} (h : next ⟨cs⟩ = (none, l)) :
    allBlank cs = true := by
  simp only [next] at h
  split at h
  · next hds => exact List.all_eq_true.2 (List.dropWhile_eq_nil_iff.1 hds)
  · split at h <;> simp at h

/-- What is read behind an operand is a gap of one blank, or of none if no blank is there. -/
theorem exists_gap_dropBlank (cs : List Char) :
    ∃ gap, cs = gap ++ dropBlank cs ∧ allBlank gap = true ∧
      (gap = [] → ∀ c ∈ cs.head?, isBlank c = false) := by
  cases cs with
  | nil => exact ⟨[], rfl, rfl, by simp⟩
  | cons c cs =>
      cases hc : isBlank c with
      | true => exact ⟨[c], by simp [dropBlank, hc], by simp [allBlank, hc], by simp⟩
      | false => exact ⟨[], by simp [dropBlank, hc], rfl, by simp [hc]⟩

end Lexer

/-! ### All steps -/

theorem operandsMeet_of_not_isOperand {t : Token} (h : t.isOperand = false) (ts : List Token) :
    operandsMeet (t :: ts) = false := by
  cases ts with
  | nil => rfl
  | cons u us => rw [operandsMeet, h, Bool.false_and]

/-- A text that spells an operand first begins with a blank or with a character of that operand. -/
theorem Spells.exists_head {t : Token} {ts : List Token} {cs : List Char} (h : Spells (t :: ts) cs)
    (ht : t.isOperand = true) : ∃ c ∈ cs.head?, isBlank c = true ∨ isOperandChar c = true := by
  cases h with
  | @cons w gap cs _ _ hw hplain hg hm hs =>
      cases w with
      | cons b w => exact ⟨b, rfl, Or.inl (allBlank_cons.1 hw).1⟩
      | nil =>
          cases t with
          | operand text =>
              obtain ⟨c, ds, htext, hall⟩ := exists_operandChars hplain
              refine ⟨c, ?_, Or.inr (hall c List.mem_cons_self)⟩
              simp [Token.text, htext]
          | _ => simp [Token.isOperand] at ht

/-- A token that is cut off in front of a spelling **is spelled with it**. -/
theorem Lexer.Cuts.spells {cs cs' : List Char} {t : Token} {ts : List Token} (h : Cuts cs t cs')
    (hs : Spells ts cs') : Spells (t :: ts) cs := by
  cases h with
  | @reserved w _ _ hw ht =>
      have h' := (hs.adjoin (Token.isPlain_of_not_isOperand ht)
        (operandsMeet_of_not_isOperand ht ts)).blank_append hw
      rwa [← List.append_assoc] at h'
  | @operand w cs text hw ht hstop =>
      obtain ⟨gap, hcs, hg, hgap⟩ := exists_gap_dropBlank cs
      have hmeet : operandsMeet (.operand text :: ts) = true → gap ≠ [] := by
        rintro hmeet rfl
        rw [List.nil_append] at hcs
        rw [← hcs] at hs
        -- nothing was dropped, so what follows begins with neither a blank nor an operand
        cases ts with
        | nil => simp [operandsMeet] at hmeet
        | cons u us =>
            have hu : u.isOperand = true := hmeet
            obtain ⟨c, hc, hblank | hchar⟩ := hs.exists_head hu
            · rw [hgap rfl c hc] at hblank
              cases hblank
            · rw [hstop c hc] at hchar
              cases hchar
      have h' := Spells.cons (t := .operand text) hw ht hg hmeet hs
      rwa [List.append_assoc, ← hcs] at h'

theorem spells_tokens (l : Lexer) : Spells (Source.tokens l) l.unread := by
  induction l using Source.inductionOn with
  | ended l l' h =>
      rw [(Source.tokens_of_next_none h).1]
      exact Spells.nil (Lexer.allBlank_of_next_eq_none h)
  | given l t l' h ih =>
      rw [Source.tokens_of_next h]
      exact (Lexer.next_eq_some_iff.1 h).spells ih

/-- **Every text spells the tokens** into which it is cut. -/
theorem spells_tokenize (s : String) : Spells (tokenize s) s.toList :=
  spells_tokens (Lexer.ofString s)

/-! ### No character is lost -/

theorem Token.not_isBlank_of_mem {t : Token} (h : t.isPlain = true) {c : Char}
    (hc : c ∈ t.text.toList) : isBlank c = false := by
  obtain ⟨text, rfl, htext⟩ | ⟨-, d, htext, hd⟩ := operand_or_reserved h
  · exact not_isBlank_of_isOperandChar (isOperandChar_of_mem_text htext hc)
  · rw [htext, List.mem_singleton] at hc
    rw [hc]
    exact not_isBlank_of_ofReserved? hd

/-- The characters of an operand are not reserved, and that of any other token is. -/
theorem Token.isReserved_of_mem {t : Token} (h : t.isPlain = true) {c : Char}
    (hc : c ∈ t.text.toList) : isReserved c = !t.isOperand := by
  obtain ⟨text, rfl, htext⟩ | ⟨ht, d, htext, hd⟩ := operand_or_reserved h
  · rw [isReserved, ofReserved?_of_isOperandChar (isOperandChar_of_mem_text htext hc)]
    rfl
  · rw [htext, List.mem_singleton] at hc
    rw [hc, isReserved, hd, ht]
    rfl

theorem Token.isOperandChar_of_mem {t : Token} (h : t.isPlain = true) {c : Char}
    (hc : c ∈ t.text.toList) : isOperandChar c = t.isOperand := by
  rw [isOperandChar, not_isBlank_of_mem h hc, isReserved_of_mem h hc, Bool.not_not]
  exact Bool.true_and _

theorem filter_not_isBlank_of_allBlank {w : List Char} (h : allBlank w = true) :
    w.filter (!isBlank ·) = [] := by
  refine List.filter_eq_nil_iff.2 fun c hc => ?_
  simp [List.all_eq_true.1 h c hc]

/-- A spelling has **the characters of its tokens** in their order, and blanks. -/
theorem Spells.flatMap_text {ts : List Token} {cs : List Char} (h : Spells ts cs) :
    ts.flatMap (·.text.toList) = cs.filter (!isBlank ·) := by
  induction h with
  | nil hw => rw [filter_not_isBlank_of_allBlank hw, List.flatMap_nil]
  | @cons w gap cs t ts hw ht hg _ _ ih =>
      have htext : t.text.toList.filter (!isBlank ·) = t.text.toList := by
        refine List.filter_eq_self.2 fun c hc => ?_
        simp [Token.not_isBlank_of_mem ht hc]
      simp only [List.filter_append, filter_not_isBlank_of_allBlank hw,
        filter_not_isBlank_of_allBlank hg, htext, List.nil_append, List.append_nil,
        List.flatMap_cons, ih]

theorem Token.text_ne_empty {t : Token} (h : t.isPlain = true) : t.text ≠ "" := by
  obtain ⟨c, cs, htext, -⟩ := exists_first h
  intro hempty
  rw [hempty] at htext
  cases htext

theorem Token.toList_text_ne_nil {t : Token} (h : t.isPlain = true) : t.text.toList ≠ [] :=
  mt String.toList_eq_nil_iff.1 (text_ne_empty h)

/-- **Cutting a text gives some tokens exactly if the text spells them.**  So the characters that are
not blank are those of the tokens, in their order, and all tokens are such as can be spelled. -/
theorem tokenize_eq_iff_spells (s : String) :
    (∀ ts, tokenize s = ts ↔ Spells ts s.toList) ∧
    (tokenize s).flatMap (·.text.toList) = s.toList.filter (!isBlank ·) ∧
    ∀ t ∈ tokenize s, t.isPlain = true ∧ t.text ≠ "" := by
  have hs := spells_tokenize s
  refine ⟨fun ts => ⟨?_, tokenize_of_spells⟩, hs.flatMap_text, fun t ht => ?_⟩
  · rintro rfl
    exact hs
  · have hplain := hs.isPlain t ht
    exact ⟨hplain, Token.text_ne_empty hplain⟩

/-- An operand that ends at a blank, one that ends at a parenthesis, and one at the end. -/
theorem tokenize_eq_iff_spells_three_ends :
    tokenize " ab\tc(!d" = [.operand "ab", .operand "c", .leftParen, .operator .neg, .operand "d"] ∧
    (Token.operand "d").text ≠ "" := by
  have hspells : Spells [.operand "ab", .operand "c", .leftParen, .operator .neg, .operand "d"]
      " ab\tc(!d".toList :=
    @Spells.cons [' '] ['\t'] _ _ _ rfl rfl rfl (by decide) <| .adjoin rfl rfl <|
      .adjoin rfl rfl <| .adjoin rfl rfl <| .adjoin rfl rfl <| .nil (w := []) rfl
  obtain ⟨hiff, -, hplain⟩ := tokenize_eq_iff_spells " ab\tc(!d"
  have htokens := (hiff _).2 hspells
  exact ⟨htokens, (hplain (.operand "d") (by rw [htokens]; decide)).2⟩

end Polish
