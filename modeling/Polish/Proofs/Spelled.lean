/-
**A text is cut into the tokens that it spells.**

`Polish.Spells` allows blanks everywhere and asks for them only between two operands.  The lexer
does not know where the gaps of a spelling begin and end: it passes over blanks, takes the longest
operand it can, and drops one blank behind it.  Whatever it leaves is again a spelling, of the
tokens that are still to come, and so the tokens come out one by one as they were spelled.

Main results:

* `Polish.Token.operand_or_reserved` — the two kinds of tokens that can be spelled;
* `Polish.Lexer.split_blanks`, `Polish.Lexer.split_operand` — where blanks and operands end;
* `Polish.Spells.dropBlank` — a blank in front may be taken away;
* `Polish.Spells.next` — **one step of cutting** gives the first token, and leaves a spelling of the
  others;
* `Polish.tokenize_of_spells` — cutting a text gives the tokens that it spells;
* `Polish.spells_intercalate` — tokens are spelled by their texts with blanks between neighbours.
-/

import Polish.Spelling
import Mathlib.Data.List.TakeWhile

set_option relaxedAutoImplicit false
set_option autoImplicit false

namespace Polish

/-! ### The characters of a token -/

theorem not_isBlank_of_isReserved {c : Char} (h : isReserved c = true) : isBlank c = false := by
  have hmem := isReserved_iff.1 h
  simp only [List.mem_cons, List.not_mem_nil, or_false] at hmem
  rcases hmem with rfl | rfl | rfl | rfl | rfl | rfl | rfl | rfl <;> decide

theorem not_isBlank_of_ofReserved? {c : Char} {t : Token} (h : Token.ofReserved? c = some t) :
    isBlank c = false :=
  not_isBlank_of_isReserved (by rw [isReserved, h, Option.isSome_some])

theorem not_isBlank_of_isOperandChar {c : Char} (h : isOperandChar c = true) :
    isBlank c = false := by
  rw [isOperandChar, Bool.and_eq_true, Bool.not_eq_true'] at h
  exact h.1

theorem ofReserved?_of_isOperandChar {c : Char} (h : isOperandChar c = true) :
    Token.ofReserved? c = none := by
  rw [isOperandChar, Bool.and_eq_true, Bool.not_eq_true', Bool.not_eq_true'] at h
  exact Option.isSome_eq_false_iff.1 h.2 |> Option.isNone_iff_eq_none.1

/-- A token that is not an operand is written with one reserved character. -/
theorem Token.exists_reserved {t : Token} (h : t.isOperand = false) :
    ∃ c, t.text.toList = [c] ∧ ofReserved? c = some t := by
  cases t with
  | operand text => simp [isOperand] at h
  | operator o =>
      cases o with
      | neg => exact ⟨'!', rfl, rfl⟩
      | binary c => cases c <;> exact ⟨_, rfl, rfl⟩
  | leftParen => exact ⟨'(', rfl, rfl⟩
  | rightParen => exact ⟨')', rfl, rfl⟩

/-- An operand that can be spelled has a first character. -/
theorem exists_operandChars {text : String} (h : isOperandText text = true) :
    ∃ c cs, text.toList = c :: cs ∧ ∀ d ∈ c :: cs, isOperandChar d = true := by
  rw [isOperandText, Bool.and_eq_true, List.all_eq_true] at h
  cases htext : text.toList with
  | nil => simp [htext] at h
  | cons c cs => exact ⟨c, cs, rfl, htext ▸ h.2⟩

theorem Token.isPlain_of_not_isOperand {t : Token} (h : t.isOperand = false) :
    t.isPlain = true := by
  cases t with
  | operand text => simp [isOperand] at h
  | _ => rfl

/-- All characters of an operand are such as can be part of one. -/
theorem isOperandChar_of_mem_text {text : String} (h : isOperandText text = true) {c : Char}
    (hc : c ∈ text.toList) : isOperandChar c = true := by
  rw [isOperandText, Bool.and_eq_true, List.all_eq_true] at h
  exact h.2 c hc

/-- A token that can be spelled is **an operand that can be, or is written with a reserved
character**. -/
theorem Token.operand_or_reserved {t : Token} (h : t.isPlain = true) :
    (∃ text, t = .operand text ∧ isOperandText text = true) ∨
      t.isOperand = false ∧ ∃ c, t.text.toList = [c] ∧ ofReserved? c = some t := by
  cases t with
  | operand text => exact .inl ⟨text, rfl, h⟩
  | _ => exact .inr ⟨rfl, exists_reserved rfl⟩

/-- No token that can be spelled begins with a blank. -/
theorem Token.exists_first {t : Token} (h : t.isPlain = true) :
    ∃ c cs, t.text.toList = c :: cs ∧ isBlank c = false := by
  obtain ⟨text, rfl, htext⟩ | ⟨-, c, htext, hc⟩ := operand_or_reserved h
  · obtain ⟨c, cs, hcs, hall⟩ := exists_operandChars htext
    exact ⟨c, cs, hcs, not_isBlank_of_isOperandChar (hall c List.mem_cons_self)⟩
  · exact ⟨c, [], htext, not_isBlank_of_ofReserved? hc⟩

/-! ### One token -/

namespace Lexer

theorem next_of_allBlank {cs : List Char} (h : allBlank cs = true) :
    next ⟨cs⟩ = (none, ⟨[]⟩) := by
  have hdrop : cs.dropWhile isBlank = [] := by
    rw [List.dropWhile_eq_nil_iff]
    exact List.all_eq_true.1 h
  simp only [next, hdrop]

/-- Blanks in front of a token that can be spelled are all the blanks there. -/
theorem split_blanks {w : List Char} {t : Token} (hw : allBlank w = true) (ht : t.isPlain = true)
    (cs : List Char) :
    (w ++ t.text.toList ++ cs).takeWhile isBlank = w ∧
      (w ++ t.text.toList ++ cs).dropWhile isBlank = t.text.toList ++ cs := by
  obtain ⟨c, ds, htext, hc⟩ := Token.exists_first ht
  have hall := List.all_eq_true.1 hw
  rw [List.append_assoc, List.takeWhile_append_of_pos hall, List.dropWhile_append_of_pos hall, htext,
    List.cons_append, List.takeWhile_cons, List.dropWhile_cons, hc]
  exact ⟨List.append_nil w, rfl⟩

/-- An operand reaches up to the first character that cannot belong to it. -/
theorem split_operand {cs : List Char} {text : String} (ht : isOperandText text = true)
    (hstop : ∀ d ∈ cs.head?, isOperandChar d = false) :
    (text.toList ++ cs).takeWhile isOperandChar = text.toList ∧
      (text.toList ++ cs).dropWhile isOperandChar = cs := by
  have hall : ∀ c ∈ text.toList, isOperandChar c = true := fun c => isOperandChar_of_mem_text ht
  rw [List.takeWhile_append_of_pos hall, List.dropWhile_append_of_pos hall]
  cases cs with
  | nil => exact ⟨List.append_nil _, rfl⟩
  | cons d cs =>
      rw [List.takeWhile_cons, List.dropWhile_cons, hstop d rfl]
      exact ⟨List.append_nil _, rfl⟩

/-- Behind blanks, a reserved character is a token, and all that follows it is left. -/
theorem next_reserved {w cs : List Char} {t : Token} (hw : allBlank w = true)
    (ht : t.isOperand = false) : next ⟨w ++ t.text.toList ++ cs⟩ = (some t, ⟨cs⟩) := by
  obtain ⟨c, htext, hc⟩ := Token.exists_reserved ht
  have hdrop := (split_blanks hw (Token.isPlain_of_not_isOperand ht) cs).2
  rw [htext, List.singleton_append] at hdrop
  simp only [next, htext, hdrop, hc]

/-- Behind blanks, an operand reaches up to the first character that cannot belong to it, and that
character is left unless it is blank. -/
theorem next_operand {w cs : List Char} {text : String} (hw : allBlank w = true)
    (ht : isOperandText text = true) (hstop : ∀ d ∈ cs.head?, isOperandChar d = false) :
    next ⟨w ++ text.toList ++ cs⟩ = (some (.operand text), ⟨dropBlank cs⟩) := by
  obtain ⟨c, ds, htext, hall⟩ := exists_operandChars ht
  have hsplit := split_operand ht hstop
  have hdrop : (w ++ text.toList ++ cs).dropWhile isBlank = text.toList ++ cs :=
    (split_blanks (t := .operand text) hw ht cs).2
  rw [htext, List.cons_append] at hsplit hdrop
  simp only [next, htext, hdrop, ofReserved?_of_isOperandChar (hall c List.mem_cons_self), hsplit]
  rw [← htext, String.ofList_toList]

end Lexer

namespace Spells

theorem nil_iff {w : List Char} : Spells [] w ↔ allBlank w = true := by
  constructor
  · intro h
    cases h with
    | nil hw => exact hw
  · exact nil

theorem not_isOperandChar_of_isBlank {c : Char} (h : isBlank c = true) :
    isOperandChar c = false := by
  rw [isOperandChar, h]
  rfl

theorem allBlank_cons {b : Char} {w : List Char} :
    allBlank (b :: w) = true ↔ isBlank b = true ∧ allBlank w = true := by
  rw [allBlank, List.all_cons, Bool.and_eq_true]
  rfl

theorem allBlank_append {v w : List Char} :
    allBlank (v ++ w) = true ↔ allBlank v = true ∧ allBlank w = true := by
  rw [allBlank, List.all_append, Bool.and_eq_true]
  rfl

/-- A blank in front may be taken away. -/
theorem dropBlank {ts : List Token} {cs : List Char} (h : Spells ts cs) :
    Spells ts (Lexer.dropBlank cs) := by
  cases h with
  | nil hw =>
      cases cs with
      | nil => exact nil hw
      | cons b w =>
          rw [allBlank_cons] at hw
          rw [Lexer.dropBlank, if_pos hw.1]
          exact nil hw.2
  | @cons w gap cs t ts hw ht hg hm hs =>
      cases w with
      | nil =>
          obtain ⟨c, ds, htext, hc⟩ := Token.exists_first ht
          have hself := cons hw ht hg hm hs
          simp only [List.nil_append, htext, List.cons_append] at hself ⊢
          rw [Lexer.dropBlank, if_neg (by simp [hc])]
          exact hself
      | cons b w =>
          rw [allBlank_cons] at hw
          simp only [List.cons_append]
          rw [Lexer.dropBlank, if_pos hw.1]
          exact cons hw.2 ht hg hm hs

/-- Where no operand is spelled first, no operand is found. -/
theorem head_not_isOperandChar {ts : List Token} {cs : List Char} (h : Spells ts cs)
    (hts : ∀ t ∈ ts.head?, t.isOperand = false) : ∀ c ∈ cs.head?, isOperandChar c = false := by
  intro c hc
  cases h with
  | nil hw =>
      cases cs with
      | nil => simp at hc
      | cons b w =>
          cases hc
          exact not_isOperandChar_of_isBlank (allBlank_cons.1 hw).1
  | @cons w gap cs t ts hw ht hg hm hs =>
      cases w with
      | nil =>
          obtain ⟨d, htext, hd⟩ := Token.exists_reserved (hts t rfl)
          simp only [List.nil_append, htext, List.cons_append] at hc
          cases hc
          simp [isOperandChar, isReserved, hd]
      | cons b w =>
          cases hc
          exact not_isOperandChar_of_isBlank (allBlank_cons.1 hw).1

/-- **One step of cutting** a spelling gives the first token, and leaves a spelling of the
others. -/
theorem next {t : Token} {ts : List Token} {cs : List Char} (h : Spells (t :: ts) cs) :
    ∃ cs', Lexer.next ⟨cs⟩ = (some t, ⟨cs'⟩) ∧ Spells ts cs' := by
  cases h with
  | @cons w gap cs _ _ hw ht hg hm hs =>
      have hrest : Spells ts (gap ++ cs) := hs.blank_append hg
      rw [List.append_assoc (w ++ t.text.toList)]
      cases t with
      | operand text =>
          refine ⟨_, Lexer.next_operand hw ht ?_, hrest.dropBlank⟩
          -- behind the operand stands a blank, unless what comes next is no operand
          cases gap with
          | nil =>
              refine hs.head_not_isOperandChar ?_
              intro u hu
              cases ts with
              | nil => simp at hu
              | cons v ts =>
                  cases hu
                  cases hv : u.isOperand with
                  | false => rfl
                  | true => exact absurd rfl (hm (by rw [operandsMeet, hv]; rfl))
          | cons b gap =>
              intro d hd
              cases hd
              exact not_isOperandChar_of_isBlank (allBlank_cons.1 hg).1
      | _ => exact ⟨_, Lexer.next_reserved hw rfl, hrest⟩

/-! ### All tokens -/

theorem tokens {ts : List Token} {cs : List Char} (h : Spells ts cs) :
    Source.tokens (⟨cs⟩ : Lexer) = ts := by
  induction ts generalizing cs with
  | nil =>
      rw [Source.tokens, Source.rest_eq]
      have hnext : Source.next (⟨cs⟩ : Lexer) = (none, ⟨[]⟩) :=
        Lexer.next_of_allBlank (nil_iff.1 h)
      rw [hnext]
  | cons t ts ih =>
      obtain ⟨cs', hnext, hs⟩ := h.next
      have hnext' : Source.next (⟨cs⟩ : Lexer) = (some t, ⟨cs'⟩) := hnext
      have htail := ih hs
      rw [Source.tokens] at htail
      rw [Source.tokens, Source.rest_eq, hnext']
      simp only [htail]

end Spells

/-- **A text is cut into the tokens that it spells.** -/
theorem tokenize_of_spells {ts : List Token} {s : String} (h : Spells ts s.toList) :
    tokenize s = ts :=
  h.tokens

/-- No blank is needed behind a token, unless two operands would run together. -/
theorem Spells.adjoin {t : Token} {ts : List Token} {cs : List Char} (ht : t.isPlain = true)
    (hmeet : operandsMeet (t :: ts) = false) (h : Spells ts cs) :
    Spells (t :: ts) (t.text.toList ++ cs) := by
  have h' := @cons [] [] cs t ts rfl ht rfl (by simp [hmeet]) h
  simpa using h'

/-- Tokens are spelled by their texts with blanks between neighbours. -/
theorem spells_intercalate {ts : List Token} {separator : String}
    (hts : ∀ t ∈ ts, t.isPlain = true) (hblank : allBlank separator.toList = true)
    (hne : separator.toList ≠ []) :
    Spells ts (separator.intercalate (ts.map Token.text)).toList := by
  induction ts with
  | nil => exact Spells.nil rfl
  | cons t ts ih =>
      have ht := hts t List.mem_cons_self
      have ih' := ih fun u hu => hts u (List.mem_cons_of_mem t hu)
      cases ts with
      | nil =>
          have hone := Spells.adjoin ht rfl (Spells.nil (w := []) rfl)
          simpa using hone
      | cons u us =>
          have hmore := Spells.cons (w := []) rfl ht hblank (fun _ => hne) ih'
          simpa using hmore

end Polish
