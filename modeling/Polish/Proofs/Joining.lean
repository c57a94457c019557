/-
**Texts that are joined.**

A lexer that comes to the end of one text and finds another one behind it may be in the middle of an
operand, and then the two texts are not cut apart: the operands on the two sides of the seam become
one.  That is the only thing that can happen: unless a character of an operand stands on both sides
of the seam, a text that is made of two is cut into the tokens of the first and then those of the
second.  So tokens that are written out with something between them that neither begins nor ends
like an operand are found again, with the tokens of what stands between them.  With nothing between
them they are found again if no two operands meet.

Main definitions:

* `Polish.seamInOperand` — whether an operand goes on across the seam of two texts;
* `Polish.written` — some tokens **written one after another**, with a separator between neighbours.

Main results:

* `Polish.Spells.append`, `Polish.Spells.fuse` — two spellings that are joined, with no operand
  across the seam, or with one;
* `Polish.tokenize_joined` — what becomes of **two texts that are joined**;
* `Polish.tokenize_written` — what lies between the tokens is cut on its own;
* `Polish.tokenize_written_blank_iff`, `Polish.tokenize_written_empty_iff` — which tokens are found
  again with blanks between them, and which with nothing between them;
* `Polish.rereading` — **cutting what was written**: all of this, with the tokens of a text and the
  postfix forms as the tokens that a space keeps apart.
-/

import Polish.Proofs.Balance
import Polish.Proofs.Cutting
import Mathlib.Data.List.Chain

set_option relaxedAutoImplicit false
set_option autoImplicit false

namespace Polish

/-! ### One text behind another -/

theorem isOperandChar_eq_false_iff {c : Char} :
    isOperandChar c = false ↔ isBlank c = true ∨ isReserved c = true := by
  rw [isOperandChar, Bool.and_eq_false_iff, Bool.not_eq_false', Bool.not_eq_false']

/-- An operand that can be spelled ends with a character of operands. -/
theorem Token.exists_last {t : Token} (h : t.isPlain = true) (ht : t.isOperand = true) :
    ∃ c ∈ t.text.toList.getLast?, isOperandChar c = true := by
  have hlast := List.getLast?_eq_some_getLast (Token.toList_text_ne_nil h)
  exact ⟨_, hlast, (Token.isOperandChar_of_mem h (List.getLast_mem _)).trans ht⟩

/-- Blanks behind a token may be missing if the token is no operand, or if what follows does not
begin like one. -/
theorem Spells.cons_of_seam {w v ds : List Char} {t : Token} {us : List Token}
    (hw : allBlank w = true) (ht : t.isPlain = true) (hv : allBlank v = true) (h : Spells us ds)
    (hseam : v = [] → t.isOperand = true → ∀ d ∈ ds.head?, isOperandChar d = false) :
    Spells (t :: us) (w ++ t.text.toList ++ v ++ ds) := by
  -- a blank at the beginning of `ds` belongs to the gap
  obtain ⟨g, hds, hg, hgap⟩ := Lexer.exists_gap_dropBlank ds
  have hblank : allBlank (v ++ g) = true := Spells.allBlank_append.2 ⟨hv, hg⟩
  have hmeet : operandsMeet (t :: us) = true → v ++ g ≠ [] := by
    intro hmeet hnil
    obtain ⟨rfl, rfl⟩ := List.append_eq_nil_iff.1 hnil
    cases us with
    | nil => cases hmeet
    | cons u us =>
        obtain ⟨htop, hu⟩ := Bool.and_eq_true_iff.1 hmeet
        obtain ⟨d, hd, hb | hchar⟩ := h.exists_head hu
        · rw [hgap rfl d hd] at hb
          cases hb
        · rw [hseam rfl htop d hd] at hchar
          cases hchar
  have hall := Spells.cons hw ht hblank hmeet h.dropBlank
  rwa [← List.append_assoc, List.append_assoc _ g, ← hds] at hall

/-- **Two spellings one after the other** spell the tokens of both, unless an operand would go on
across the seam. -/
theorem Spells.append {ts us : List Token} {cs ds : List Char} (h : Spells ts cs)
    (h' : Spells us ds)
    (hseam : ∀ c ∈ cs.getLast?, ∀ d ∈ ds.head?, isOperandChar c = true → isOperandChar d = false) :
    Spells (ts ++ us) (cs ++ ds) := by
  induction h with
  | nil hw => exact h'.blank_append hw
  | @cons w gap cs t ts hw ht hg hm hs ih =>
      cases ts with
      | cons u ts =>
          have hrest : Spells (u :: (ts ++ us)) (cs ++ ds) :=
            ih fun c hc => hseam c (by rw [List.getLast?_append, hc]; rfl)
          have hmeet : operandsMeet (t :: u :: (ts ++ us)) = true → gap ≠ [] := hm
          have hall := Spells.cons hw ht hg hmeet hrest
          rwa [← List.append_assoc] at hall
      | nil =>
          have hv : allBlank (gap ++ cs) = true := allBlank_append.2 ⟨hg, Spells.nil_iff.1 hs⟩
          have hall := h'.cons_of_seam hw ht hv ?_
          · rwa [← List.append_assoc] at hall
          · intro hnil htop d hd
            obtain ⟨rfl, rfl⟩ := List.append_eq_nil_iff.1 hnil
            obtain ⟨c, hc, hchar⟩ := Token.exists_last ht htop
            refine hseam c ?_ d hd hchar
            rw [List.append_nil, List.append_nil, List.getLast?_append, hc]
            rfl

/-- **Two texts that are joined** are cut apart, unless an operand would go on across the seam. -/
theorem tokenize_append {s t : String}
    (hseam : ∀ c ∈ s.toList.getLast?, ∀ d ∈ t.toList.head?,
      isOperandChar c = true → isOperandChar d = false) :
    tokenize (s ++ t) = tokenize s ++ tokenize t := by
  refine tokenize_of_spells ?_
  rw [String.toList_append]
  exact (spells_tokenize s).append (spells_tokenize t) hseam

/-! ### An operand across the seam -/

/-- Whether a character of an operand stands **on both sides of the seam** of two texts. -/
def seamInOperand (s t : String) : Bool :=
  s.toList.getLast?.any isOperandChar && t.toList.head?.any isOperandChar

theorem seamInOperand_iff {s t : String} :
    seamInOperand s t = true ↔ (∃ c ∈ s.toList.getLast?, isOperandChar c = true) ∧
      ∃ d ∈ t.toList.head?, isOperandChar d = true := by
  rw [seamInOperand, Bool.and_eq_true, Option.any_eq_true, Option.any_eq_true]
  rfl

theorem isOperandText_append {text text' : String} (h : isOperandText text = true)
    (h' : isOperandText text' = true) : isOperandText (text ++ text') = true := by
  obtain ⟨c, cs, htext, hall⟩ := exists_operandChars h
  rw [isOperandText, Bool.and_eq_true] at h' ⊢
  rw [String.toList_append, List.all_append, htext, List.all_eq_true.2 hall, h'.2]
  exact ⟨rfl, rfl⟩

theorem Spells.ne_nil {t : Token} {ts : List Token} {cs : List Char} (h : Spells (t :: ts) cs) :
    cs ≠ [] := by
  rintro rfl
  obtain ⟨cs', hnext, -⟩ := h.next
  cases hnext

/-- A text that begins with a character of an operand spells one first, and that operand **may begin
earlier**. -/
theorem Spells.exists_first_operand {us : List Token} {ds : List Char} (h : Spells us ds)
    (hfirst : ∃ d ∈ ds.head?, isOperandChar d = true) :
    ∃ y us', us = .operand y :: us' ∧ ∀ x, isOperandText x = true →
      Spells (.operand (x ++ y) :: us') (x.toList ++ ds) := by
  obtain ⟨d, hd, hchar⟩ := hfirst
  cases h with
  | nil hw =>
      rw [(Spells.nil hw).head_not_isOperandChar (fun _ ht => nomatch ht) d hd] at hchar
      cases hchar
  | @cons w gap cs u us hw hplain hg hm hs =>
      cases w with
      | cons b w =>
          cases hd
          rw [not_isOperandChar_of_isBlank (allBlank_cons.1 hw).1] at hchar
          cases hchar
      | nil =>
          have hmem : d ∈ u.text.toList := by
            obtain ⟨c, ds, htext, -⟩ := Token.exists_first hplain
            rw [List.nil_append, htext] at hd
            cases hd
            rw [htext]
            exact List.mem_cons_self
          rw [Token.isOperandChar_of_mem hplain hmem] at hchar
          cases u with
          | operand y =>
              refine ⟨y, us, rfl, fun x hx => ?_⟩
              have hlonger : (Token.operand (x ++ y)).isPlain = true :=
                isOperandText_append hx hplain
              have hmeet : operandsMeet (.operand (x ++ y) :: us) = true → gap ≠ [] := by
                cases us <;> exact hm
              simpa [Token.text] using Spells.cons (w := []) rfl hlonger hg hmeet hs
          | _ => cases hchar

/-- **An operand that goes on across the seam** of two spellings is spelled as one. -/
theorem Spells.fuse {ts us : List Token} {cs ds : List Char} (h : Spells ts cs) (h' : Spells us ds)
    (hlast : ∃ c ∈ cs.getLast?, isOperandChar c = true)
    (hfirst : ∃ d ∈ ds.head?, isOperandChar d = true) :
    ∃ ts' x y us', ts = ts' ++ [.operand x] ∧ us = .operand y :: us' ∧
      Spells (ts' ++ .operand (x ++ y) :: us') (cs ++ ds) := by
  obtain ⟨c, hc, hchar⟩ := hlast
  have hblank : ∀ w, allBlank w = true → c ∉ w.getLast? := fun w hw hmem => by
    have hb := List.all_eq_true.1 hw c (List.mem_of_getLast? hmem)
    rw [not_isOperandChar_of_isBlank hb] at hchar
    cases hchar
  induction h with
  | nil hw => exact absurd hc (hblank _ hw)
  | @cons w gap cs t ts hw ht hg hm hs ih =>
      cases ts with
      | cons v ts =>
          -- the text ends as it does without its first token
          have hend := List.getLast?_eq_some_getLast hs.ne_nil
          rw [List.getLast?_append, hend] at hc
          obtain ⟨ts', x, y, us', hts, hus, hall⟩ := ih (hend ▸ hc)
          refine ⟨t :: ts', x, y, us', by rw [hts]; rfl, hus, ?_⟩
          have hmeet : operandsMeet (t :: (ts' ++ .operand (x ++ y) :: us')) = true → gap ≠ [] := by
            rw [hts] at hm
            cases ts' <;> exact hm
          have hmore := Spells.cons hw ht hg hmeet hall
          rwa [← List.append_assoc] at hmore
      | nil =>
          -- nothing stands behind the token
          have hv : allBlank (gap ++ cs) = true := allBlank_append.2 ⟨hg, Spells.nil_iff.1 hs⟩
          have hnone : gap ++ cs = [] := by
            by_contra hne
            have hend := List.getLast?_eq_some_getLast hne
            rw [List.append_assoc, List.getLast?_append, hend] at hc
            exact hblank _ hv (hend ▸ hc)
          obtain ⟨rfl, rfl⟩ := List.append_eq_nil_iff.1 hnone
          obtain ⟨y, us', rfl, hlonger⟩ := h'.exists_first_operand hfirst
          have hend := List.getLast?_eq_some_getLast (Token.toList_text_ne_nil ht)
          rw [List.append_nil, List.append_nil, List.getLast?_append, hend] at hc
          cases hc
          rw [Token.isOperandChar_of_mem ht (List.getLast_mem _)] at hchar
          cases t with
          | operand x =>
              have hone := (hlonger x ht).blank_append hw
              exact ⟨[], x, y, us', rfl, rfl, by simpa [Token.text] using hone⟩
          | _ => cases hchar

/-- What becomes of **two texts that are joined**.  If a character of an operand stands on both
sides of the seam, then the last token of the first text and the first one of the second are
operands that become one; in every other case the tokens of the first text are followed by those of
the second. -/
theorem tokenize_joined (s t : String) :
    (seamInOperand s t = true → ∃ ts x y us, tokenize s = ts ++ [.operand x] ∧
      tokenize t = .operand y :: us ∧ tokenize (s ++ t) = ts ++ .operand (x ++ y) :: us) ∧
    (seamInOperand s t = false → tokenize (s ++ t) = tokenize s ++ tokenize t) := by
  constructor
  · intro h
    obtain ⟨hlast, hfirst⟩ := seamInOperand_iff.1 h
    obtain ⟨ts, x, y, us, hs, ht, hall⟩ := (spells_tokenize s).fuse (spells_tokenize t) hlast hfirst
    refine ⟨ts, x, y, us, hs, ht, tokenize_of_spells ?_⟩
    rwa [String.toList_append]
  · intro h
    refine tokenize_append fun c hc d hd hchar => ?_
    rw [← Bool.not_eq_true]
    intro hchar'
    rw [seamInOperand_iff.2 ⟨⟨c, hc, hchar⟩, d, hd, hchar'⟩] at h
    cases h

/-- A seam inside an operand, and one where a blank keeps two operands apart. -/
theorem tokenize_joined_both_ways :
    tokenize ("(ab" ++ "c&d") =
        [.leftParen, .operand "abc", .operator (.binary .conj), .operand "d"] ∧
      tokenize ("ab " ++ "c") = [.operand "ab", .operand "c"] := by
  obtain ⟨ts, x, y, us, hs, ht, hall⟩ := (tokenize_joined "(ab" "c&d").1 rfl
  have hs' : tokenize "(ab" = [.leftParen] ++ [.operand "ab"] := rfl
  have ht' : tokenize "c&d" = .operand "c" :: [.operator (.binary .conj), .operand "d"] := rfl
  obtain ⟨rfl, hx⟩ := List.append_inj' (hs.symm.trans hs') rfl
  obtain ⟨hy, rfl⟩ := List.cons.inj (ht.symm.trans ht')
  cases hx
  cases hy
  exact ⟨hall, (tokenize_joined "ab " "c").2 rfl⟩

/-! ### Tokens that are written out -/

/-- The texts of some tokens **one after another**, with a separator between neighbours. -/
def written (separator : String) (ts : List Token) : String :=
  separator.intercalate (ts.map Token.text)

theorem written_cons_cons (separator : String) (t u : Token) (us : List Token) :
    written separator (t :: u :: us) = t.text ++ separator ++ written separator (u :: us) :=
  String.intercalate_cons_cons

theorem tokenize_text {t : Token} (h : t.isPlain = true) : tokenize t.text = [t] := by
  have hspells := Spells.adjoin h rfl (Spells.nil (w := []) rfl)
  rw [List.append_nil] at hspells
  exact tokenize_of_spells hspells

/-- A separator that neither begins nor ends like an operand **is cut on its own**, wherever it
stands between two tokens. -/
theorem tokenize_written {ts : List Token} {separator : String}
    (hts : ∀ t ∈ ts, t.isPlain = true) (hne : separator ≠ "")
    (hfirst : ∀ c ∈ separator.toList.head?, isOperandChar c = false)
    (hlast : ∀ c ∈ separator.toList.getLast?, isOperandChar c = false) :
    tokenize (written separator ts) = (tokenize separator).intercalate (ts.map fun t => [t]) := by
  induction ts with
  | nil => rfl
  | cons t ts ih =>
      have ht := hts t List.mem_cons_self
      have ih' := ih fun u hu => hts u (List.mem_cons_of_mem t hu)
      cases ts with
      | nil =>
          rw [written, List.map_singleton, String.intercalate_singleton, tokenize_text ht,
            List.map_singleton, List.intercalate_singleton]
      | cons u us =>
          have hend : (t.text ++ separator).toList.getLast? = separator.toList.getLast? := by
            have hsome := List.getLast?_eq_some_getLast (by simpa using hne : separator.toList ≠ [])
            rw [String.toList_append, List.getLast?_append, hsome]
            rfl
          have hbehind : tokenize (t.text ++ separator ++ written separator (u :: us)) =
              tokenize (t.text ++ separator) ++ tokenize (written separator (u :: us)) := by
            refine tokenize_append fun c hc d _ hchar => ?_
            rw [hend] at hc
            rw [hlast c hc] at hchar
            cases hchar
          have hbefore : tokenize (t.text ++ separator) = tokenize t.text ++ tokenize separator :=
            tokenize_append fun _ _ d hd _ => hfirst d hd
          rw [written_cons_cons, hbehind, hbefore, tokenize_text ht, ih']
          exact List.intercalate_cons_cons.symm

/-- With blanks between them, tokens are found again **exactly if they can be spelled**. -/
theorem tokenize_written_blank_iff {ts : List Token} {separator : String} (hne : separator ≠ "")
    (hblank : allBlank separator.toList = true) :
    tokenize (written separator ts) = ts ↔ ∀ t ∈ ts, t.isPlain = true := by
  constructor
  · intro h
    have hspells := spells_tokenize (written separator ts)
    rw [h] at hspells
    exact hspells.isPlain
  · intro hts
    exact tokenize_of_spells (spells_intercalate hts hblank (by simpa using hne))

/-! ### With nothing between them -/

/-- Without blanks among the characters, no two operands are spelled side by side. -/
theorem Spells.isChain {ts : List Token} {cs : List Char} (h : Spells ts cs)
    (hcs : ∀ c ∈ cs, isBlank c = false) :
    ts.IsChain fun t u => ¬ (t.isOperand = true ∧ u.isOperand = true) := by
  induction h with
  | nil _ => exact List.IsChain.nil
  | @cons w gap cs t ts hw ht hg hm hs ih =>
      refine List.IsChain.cons (ih fun c hc => hcs c (List.mem_append_right _ hc)) ?_
      rintro u hu ⟨htop, hu'⟩
      cases ts with
      | nil => cases hu
      | cons v ts =>
          cases hu
          cases gap with
          | nil => exact hm (Bool.and_eq_true_iff.2 ⟨htop, hu'⟩) rfl
          | cons b gap =>
              have hb := hcs b (by simp)
              rw [(allBlank_cons.1 hg).1] at hb
              cases hb

theorem toList_written_empty (ts : List Token) :
    (written "" ts).toList = ts.flatMap (·.text.toList) := by
  induction ts with
  | nil => rfl
  | cons t ts ih =>
      cases ts with
      | nil =>
          rw [written, List.map_singleton, String.intercalate_singleton, List.flatMap_singleton]
      | cons u us =>
          rw [written_cons_cons, String.append_empty, String.toList_append, ih]
          rfl

/-- With nothing between them, tokens that can be spelled are found again **exactly if no two
operands meet**. -/
theorem tokenize_written_empty_iff {ts : List Token} (hts : ∀ t ∈ ts, t.isPlain = true) :
    tokenize (written "" ts) = ts ↔
      ts.IsChain fun t u => ¬ (t.isOperand = true ∧ u.isOperand = true) := by
  constructor
  · intro h
    have hspells := spells_tokenize (written "" ts)
    rw [h, toList_written_empty] at hspells
    refine hspells.isChain fun c hc => ?_
    rw [hspells.flatMap_text] at hc
    simpa using (List.mem_filter.1 hc).2
  · intro h
    refine tokenize_of_spells ?_
    rw [toList_written_empty]
    induction ts with
    | nil => exact Spells.nil rfl
    | cons t ts ih =>
        have hmeet : operandsMeet (t :: ts) = false := by
          cases ts with
          | nil => rfl
          | cons u us =>
              have hno := List.IsChain.rel_head? h rfl
              rwa [← Bool.and_eq_true_iff, Bool.not_eq_true] at hno
        exact Spells.adjoin (hts t List.mem_cons_self) hmeet
          (ih (fun u hu => hts u (List.mem_cons_of_mem t hu)) h.tail)

/-! ### Reading again -/

/-- **Cutting what was written** gives the tokens again, with those of the separator between every
two neighbours, if the separator neither begins nor ends like an operand.  A separator of blanks
adds nothing, and then only tokens that can be spelled are found again; without a separator no two
operands may meet.  So a space between them keeps the tokens of any text, and the tokens of every
postfix form of tokens that it keeps. -/
theorem rereading (ts : List Token) (separator : String) :
    ((∀ t ∈ ts, t.isPlain = true) → separator ≠ "" →
      (∀ c ∈ separator.toList.head?, isBlank c = true ∨ isReserved c = true) →
      (∀ c ∈ separator.toList.getLast?, isBlank c = true ∨ isReserved c = true) →
      tokenize (written separator ts) = (tokenize separator).intercalate (ts.map fun t => [t])) ∧
    (separator ≠ "" → allBlank separator.toList = true →
      (tokenize (written separator ts) = ts ↔ ∀ t ∈ ts, t.isPlain = true)) ∧
    ((∀ t ∈ ts, t.isPlain = true) →
      (tokenize (written "" ts) = ts ↔
        ts.IsChain fun t u => ¬ (t.isOperand = true ∧ u.isOperand = true))) ∧
    (∀ s, tokenize (written " " (tokenize s)) = tokenize s) ∧
    ∀ out, tokenize (written " " ts) = ts → convert ts = .ok out →
      tokenize (written " " out) = out := by
  have hspace : ∀ us, tokenize (written " " us) = us ↔ ∀ t ∈ us, t.isPlain = true :=
    fun us => tokenize_written_blank_iff (by decide) (by decide)
  refine ⟨fun hts hne hfirst hlast => ?_, tokenize_written_blank_iff, tokenize_written_empty_iff,
    fun s => (hspace _).2 (spells_tokenize s).isPlain, fun out hkept h => (hspace _).2 ?_⟩
  · exact tokenize_written hts hne (fun c hc => isOperandChar_eq_false_iff.2 (hfirst c hc))
      fun c hc => isOperandChar_eq_false_iff.2 (hlast c hc)
  · intro t ht
    exact (hspace ts).1 hkept t (mem_of_convert h ht)

/-- A separator with an operand inside, and a postfix form that a space keeps. -/
theorem rereading_with_operand_between :
    let tokens := [Token.operand "a", .operator .neg, .operand "b"]
    tokenize (written " x&" tokens) =
        [.operand "a", .operand "x", .operator (.binary .conj), .operator .neg, .operand "x",
          .operator (.binary .conj), .operand "b"] ∧
      tokenize (written "" tokens) = tokens ∧
      tokenize (written " " [.operand "a", .operand "b", .operator .neg]) =
        [.operand "a", .operand "b", .operator .neg] := by
  intro tokens
  obtain ⟨hbetween, -, hempty, -⟩ := rereading tokens " x&"
  obtain ⟨-, hblank, -, -, hform⟩ := rereading tokens " "
  have hplain : ∀ t ∈ tokens, t.isPlain = true := by decide
  have hseparator : tokenize " x&" = [.operand "x", .operator (.binary .conj)] := by decide
  refine ⟨?_, (hempty hplain).2 (by decide), ?_⟩
  · have hfirst : ∀ c ∈ " x&".toList.head?, isBlank c = true ∨ isReserved c = true := by
      rintro c ⟨⟩
      exact .inl rfl
    have hlast : ∀ c ∈ " x&".toList.getLast?, isBlank c = true ∨ isReserved c = true := by
      rintro c ⟨⟩
      exact .inr rfl
    rw [hbetween hplain (by decide) hfirst hlast, hseparator]
    rfl
  · exact hform _ ((hblank (by decide) (by decide)).2 hplain) rfl

end Polish
