/-
**What one step of cutting reads.**

A step passes over blanks and gives a token, and it does not tell where it stopped.  That can be
told from the characters alone.  A reserved character is read and nothing behind it.  An operand is
read as far as it reaches, and behind it one blank, if it is a blank that ends it; whatever else ends
it is left to the next step.  So every token costs at least one character that is not blank, and a
text has as many tokens as such characters only if no operand has more than one.

Main definitions:

* `Polish.Lexer.Footprint` — **what a step reads** of some characters, and what it leaves.

Main results:

* `Polish.Lexer.exists_footprint_iff` — the footprint is that of the step, and there is no other;
* `Polish.Lexer.next_iterate_of_allBlank` — a text that has ended stays so;
* `Polish.length_le_flatMap_text`, `Polish.length_eq_flatMap_text_iff` — how many tokens some
  characters can have;
* `Polish.next_footprint` — **one step of cutting**, and what follows for all of them.
-/

import Polish.Proofs.Cutting
import Mathlib.Logic.Function.Iterate

set_option relaxedAutoImplicit false
set_option autoImplicit false

namespace Polish

namespace Lexer

/-! ### The pieces of one step -/

/-- What stands behind the operand that some characters have behind their blanks. -/
def behindOperand (cs : List Char) : List Char :=
  (cs.dropWhile isBlank).dropWhile isOperandChar

/-- The blank with which some characters begin, if they begin with one. -/
def leadingBlank : List Char → List Char
  | [] => []
  | c :: _ => if isBlank c then [c] else []

theorem leadingBlank_append_dropBlank (cs : List Char) : leadingBlank cs ++ dropBlank cs = cs := by
  cases cs with
  | nil => rfl
  | cons c cs => cases hc : isBlank c <;> simp [leadingBlank, dropBlank, hc]

/-- A step reads from the characters `cs` **the blanks in front, the token `t` and the gap**, and
leaves `cs'`.  There is no gap behind a reserved character.  An operand is the longest that starts
behind the blanks, and the gap is the blank that ends it, if a blank does. -/
structure Footprint (cs : List Char) (t : Token) (gap cs' : List Char) : Prop where
  pieces : cs = cs.takeWhile isBlank ++ t.text.toList ++ gap ++ cs'
  plain : t.isPlain = true
  reserved : t.isOperand = false → gap = []
  operand : ∀ text, t = .operand text →
    text.toList = (cs.dropWhile isBlank).takeWhile isOperandChar ∧
      gap = leadingBlank (behindOperand cs)

theorem Cuts.exists_footprint {cs cs' : List Char} {t : Token} (h : Cuts cs t cs') :
    ∃ gap, Footprint cs t gap cs' := by
  cases h with
  | @reserved w cs t hw ht =>
      have hplain := Token.isPlain_of_not_isOperand ht
      refine ⟨[], ?_, hplain, fun _ => rfl, ?_⟩
      · rw [(split_blanks hw hplain cs').1, List.append_nil]
      · rintro text rfl
        cases ht
  | @operand w cs text hw ht hstop =>
      obtain ⟨htake, hdrop⟩ := split_blanks (t := .operand text) hw ht cs
      obtain ⟨hlongest, hstopped⟩ := split_operand ht hstop
      have hbehind : behindOperand (w ++ text.toList ++ cs) = cs :=
        (congrArg (List.dropWhile isOperandChar) hdrop).trans hstopped
      refine ⟨leadingBlank cs, ?_, ht, fun h => (by cases h), ?_⟩
      · rw [List.append_assoc _ (leadingBlank cs), leadingBlank_append_dropBlank]
        exact congrArg (· ++ text.toList ++ cs) htake.symm
      · rintro _ ⟨⟩
        rw [hbehind]
        exact ⟨((congrArg (List.takeWhile isOperandChar) hdrop).trans hlongest).symm, rfl⟩

/-- The gap and what is left are what stands behind the operand. -/
theorem Footprint.gap_append {cs gap cs' : List Char} {text : String}
    (h : Footprint cs (.operand text) gap cs') : gap ++ cs' = behindOperand cs := by
  have hdrop : cs.dropWhile isBlank = text.toList ++ (gap ++ cs') := by
    have hsplit := List.takeWhile_append_dropWhile (p := isBlank) (l := cs)
    have hpieces := h.pieces
    rw [List.append_assoc, List.append_assoc] at hpieces
    exact List.append_cancel_left (hsplit.trans hpieces)
  have hsplit := List.takeWhile_append_dropWhile (p := isOperandChar) (l := cs.dropWhile isBlank)
  rw [← (h.operand text rfl).1] at hsplit
  exact (List.append_cancel_left (hsplit.trans hdrop)).symm

/-- A footprint leaves nothing open: the step that has it reads and leaves just that. -/
theorem Footprint.cuts {cs gap cs' : List Char} {t : Token} (h : Footprint cs t gap cs') :
    Cuts cs t cs' := by
  have hblank : allBlank (cs.takeWhile isBlank) = true := List.all_takeWhile
  have hpieces := h.pieces
  obtain ⟨text, rfl, htext⟩ | ⟨ht, -⟩ := Token.operand_or_reserved h.plain
  · have hbehind := h.gap_append
    -- one blank is dropped where the gap has it, and none where the gap is empty
    have hcs' : cs' = dropBlank (behindOperand cs) := by
      have hsplit := leadingBlank_append_dropBlank (behindOperand cs)
      rw [← (h.operand text rfl).2] at hsplit
      exact (List.append_cancel_left (hsplit.trans hbehind.symm)).symm
    have hcut := Cuts.operand hblank htext (not_isOperandChar_head (cs.dropWhile isBlank))
    change Cuts (_ ++ behindOperand cs) _ (dropBlank (behindOperand cs)) at hcut
    rw [← hcs', ← hbehind, ← List.append_assoc] at hcut
    exact hpieces ▸ hcut
  · rw [h.reserved ht, List.append_nil] at hpieces
    have hcut := @Cuts.reserved _ cs' t hblank ht
    rwa [← hpieces] at hcut

/-- The footprint is **that of the step**, and there is no other. -/
theorem exists_footprint_iff {cs cs' : List Char} {t : Token} :
    (∃ gap, Footprint cs t gap cs') ↔ next ⟨cs⟩ = (some t, ⟨cs'⟩) := by
  rw [next_eq_some_iff]
  exact ⟨fun ⟨_, h⟩ => h.cuts, Cuts.exists_footprint⟩

/-! ### The end of a text -/

theorem next_fst_eq_none_iff {cs : List Char} : (next ⟨cs⟩).1 = none ↔ allBlank cs = true := by
  constructor
  · intro h
    exact allBlank_of_next_eq_none (Prod.ext h rfl)
  · intro h
    rw [next_of_allBlank h]

/-- A text that has ended **stays so**, however often the next token is asked for. -/
theorem next_iterate_of_allBlank {cs : List Char} (h : allBlank cs = true) (n : Nat) :
    next ((fun l : Lexer => l.next.2)^[n] ⟨cs⟩) = (none, ⟨[]⟩) := by
  induction n generalizing cs with
  | zero => exact next_of_allBlank h
  | succ n ih =>
      rw [Function.iterate_succ_apply, next_of_allBlank h]
      exact ih rfl

end Lexer

/-! ### How many tokens there are -/

/-- Tokens that can be spelled are **no more than their characters**. -/
theorem length_le_flatMap_text {ts : List Token} (h : ∀ t ∈ ts, t.isPlain = true) :
    ts.length ≤ (ts.flatMap (·.text.toList)).length := by
  induction ts with
  | nil => exact Nat.le_refl _
  | cons t ts ih =>
      have ht := List.length_pos_iff.2 (Token.toList_text_ne_nil (h t List.mem_cons_self))
      have hts := ih fun u hu => h u (List.mem_cons_of_mem t hu)
      rw [List.flatMap_cons, List.length_append, List.length_cons]
      omega

/-- There are as many tokens as characters in them exactly if **no operand is longer than one
character**. -/
theorem length_eq_flatMap_text_iff {ts : List Token} (h : ∀ t ∈ ts, t.isPlain = true) :
    ts.length = (ts.flatMap (·.text.toList)).length ↔
      ∀ text, Token.operand text ∈ ts → text.length ≤ 1 := by
  induction ts with
  | nil => simp
  | cons t ts ih =>
      have hts : ∀ u ∈ ts, u.isPlain = true := fun u hu => h u (List.mem_cons_of_mem t hu)
      have hpos := List.length_pos_iff.2 (Token.toList_text_ne_nil (h t List.mem_cons_self))
      have hle := length_le_flatMap_text hts
      rw [List.flatMap_cons, List.length_append, List.length_cons]
      have hsplit : ts.length + 1 =
          t.text.toList.length + (ts.flatMap (·.text.toList)).length ↔
          t.text.toList.length ≤ 1 ∧ ts.length = (ts.flatMap (·.text.toList)).length := by omega
      rw [hsplit, ih hts]
      simp only [List.mem_cons]
      constructor
      · rintro ⟨ht, hall⟩ text (rfl | hmem)
        · exact ht
        · exact hall text hmem
      · intro hall
        refine ⟨?_, fun text hmem => hall text (.inr hmem)⟩
        obtain ⟨text, rfl, -⟩ | ⟨-, c, htext, -⟩ :=
          Token.operand_or_reserved (h t List.mem_cons_self)
        · exact hall text (.inl rfl)
        · rw [htext]
          exact Nat.le_refl 1

/-- **One step of cutting.**  It gives nothing exactly if all characters are blank; then nothing is
left, and nothing is given later.  Otherwise it gives a token and has its footprint, and what it
leaves is shorter.  So some characters have at most as many tokens as there are characters among
them that are not blank, and as many exactly if no operand has more than one character. -/
theorem next_footprint (cs : List Char) :
    ((Lexer.next ⟨cs⟩).1 = none ↔ allBlank cs = true) ∧
    (allBlank cs = true → ∀ n, Lexer.next ((fun l : Lexer => l.next.2)^[n] ⟨cs⟩) = (none, ⟨[]⟩)) ∧
    (allBlank cs = false → ∃ t gap cs', Lexer.next ⟨cs⟩ = (some t, ⟨cs'⟩) ∧
      Lexer.Footprint cs t gap cs' ∧ cs'.length < cs.length) ∧
    (∀ t gap cs', Lexer.Footprint cs t gap cs' → Lexer.next ⟨cs⟩ = (some t, ⟨cs'⟩)) ∧
    (Source.tokens (⟨cs⟩ : Lexer)).length ≤ cs.countP (!isBlank ·) ∧
    ((Source.tokens (⟨cs⟩ : Lexer)).length = cs.countP (!isBlank ·) ↔
      ∀ text, Token.operand text ∈ Source.tokens (⟨cs⟩ : Lexer) → text.length ≤ 1) := by
  have hspells : Spells (Source.tokens (⟨cs⟩ : Lexer)) cs := spells_tokens ⟨cs⟩
  refine ⟨Lexer.next_fst_eq_none_iff, Lexer.next_iterate_of_allBlank, fun h => ?_,
    fun t gap cs' h => Lexer.exists_footprint_iff.1 ⟨gap, h⟩, ?_, ?_⟩
  · rcases hnext : Lexer.next ⟨cs⟩ with ⟨_ | t, ⟨cs'⟩⟩
    · rw [Lexer.allBlank_of_next_eq_none hnext] at h
      cases h
    · obtain ⟨gap, hgap⟩ := Lexer.exists_footprint_iff.2 hnext
      have hlt := Lexer.length_next_lt (l := ⟨cs⟩) (by rw [hnext])
      rw [hnext] at hlt
      exact ⟨t, gap, cs', rfl, hgap, hlt⟩
  · rw [List.countP_eq_length_filter, ← hspells.flatMap_text]
    exact length_le_flatMap_text hspells.isPlain
  · rw [List.countP_eq_length_filter, ← hspells.flatMap_text]
    exact length_eq_flatMap_text_iff hspells.isPlain

/-- An operand takes one of the two blanks behind it; and a text of blanks ends, and stays so. -/
theorem next_footprint_one_blank :
    Lexer.Footprint "\tab  (".toList (.operand "ab") [' '] " (".toList ∧
    Lexer.next ⟨"\tab  (".toList⟩ = (some (.operand "ab"), ⟨" (".toList⟩) ∧
    (∃ t gap cs', Lexer.next ⟨" (".toList⟩ = (some t, ⟨cs'⟩) ∧
      Lexer.Footprint " (".toList t gap cs' ∧ cs'.length < 2) ∧
    Lexer.next ((fun l : Lexer => l.next.2)^[3] ⟨"\t ".toList⟩) = (none, ⟨[]⟩) := by
  obtain ⟨-, -, -, hnext, -⟩ := next_footprint "\tab  (".toList
  obtain ⟨-, -, hsome, -⟩ := next_footprint " (".toList
  obtain ⟨-, hended, -⟩ := next_footprint "\t ".toList
  have hfootprint : Lexer.Footprint "\tab  (".toList (.operand "ab") [' '] " (".toList := by
    refine ⟨rfl, rfl, fun h => (by cases h), ?_⟩
    rintro _ ⟨⟩
    exact ⟨rfl, rfl⟩
  exact ⟨hfootprint, hnext _ _ _ hfootprint, hsome rfl, hended rfl 3⟩

end Polish
