/-
**What the program answers.**

The program counts no parentheses: it cuts its argument into tokens, puts them into postfix order,
and prints them or reports why it cannot.  What it answers can still be told from the characters of
the argument alone.  Every parenthesis among them becomes a token of its own and nothing else becomes
one, so the characters balance where the tokens match.  The line that it prints consists of tokens
that were cut from a text, and therefore the same tokens are found in it again.  The report that it
writes instead tells the text and the mismatch.

Main definitions:

* `Polish.parenOf?` — the parenthesis that a character stands for.

Main results:

* `Polish.Spells.parens` — a spelling has **the parentheses of its tokens**;
* `Polish.convert_tokenize_eq_unopened_iff`, `Polish.balanced_iff_matched` — what the parentheses of
  a text tell about its conversion;
* `Polish.Postfix.tokenize_line`, `Polish.Postfix.pieces_text` — two ways to read a line again;
* `Polish.answer_by_balance` — **what the program answers**, and that this agrees with all other
  ways to convert a text.
-/

import Polish.CommandLine
import Polish.Proofs.Joining
import Polish.Proofs.ReadBack
import Polish.Proofs.Wording

set_option relaxedAutoImplicit false
set_option autoImplicit false

namespace Polish

/-! ### The parentheses of a text -/

/-- The parenthesis that a character stands for. -/
def parenOf? (c : Char) : Option Token := (Token.ofReserved? c).filter (·.isParen)

theorem parenOf?_eq_some_iff {c : Char} {t : Token} :
    parenOf? c = some t ↔ t.isParen = true ∧ t.text = c.toString := by
  constructor
  · intro h
    obtain ⟨hc, ht⟩ := Option.filter_eq_some_iff.1 h
    exact ⟨ht, Token.text_of_ofReserved? hc⟩
  · rintro ⟨ht, htext⟩
    have hoperand : t.isOperand = false := by
      cases t with
      | operand text => cases ht
      | _ => rfl
    obtain ⟨d, hd, hread⟩ := Token.exists_reserved hoperand
    have hcd : c = d := by
      rw [htext] at hd
      simpa using hd
    rw [parenOf?, hcd, hread]
    exact Option.filter_eq_some_iff.2 ⟨rfl, ht⟩

/-- No blank is a parenthesis. -/
theorem filterMap_parenOf?_of_allBlank {w : List Char} (h : allBlank w = true) :
    w.filterMap parenOf? = [] := by
  refine List.filterMap_eq_nil_iff.2 fun c hc => ?_
  cases hread : Token.ofReserved? c with
  | none => rw [parenOf?, hread, Option.filter_none]
  | some t =>
      have hblank := not_isBlank_of_ofReserved? hread
      rw [List.all_eq_true.1 h c hc] at hblank
      cases hblank

/-- A token that can be spelled has a parenthesis in its text only if it is one. -/
theorem Token.filterMap_parenOf? {t : Token} (h : t.isPlain = true) :
    t.text.toList.filterMap parenOf? = [t].filter (·.isParen) := by
  obtain ⟨text, rfl, htext⟩ | ⟨-, c, htext, hc⟩ := operand_or_reserved h
  · refine List.filterMap_eq_nil_iff.2 fun c hc => ?_
    rw [parenOf?, ofReserved?_of_isOperandChar (isOperandChar_of_mem_text htext hc),
      Option.filter_none]
  · rw [htext, List.filterMap_cons, parenOf?, hc]
    cases t with
    | _ => rfl

/-- A spelling has **the parentheses of its tokens**, in their order. -/
theorem Spells.parens {ts : List Token} {cs : List Char} (h : Spells ts cs) :
    cs.filterMap parenOf? = ts.filter (·.isParen) := by
  induction h with
  | nil hw => exact filterMap_parenOf?_of_allBlank hw
  | @cons w gap cs t ts hw ht hg _ _ ih =>
      rw [List.filterMap_append, List.filterMap_append, List.filterMap_append,
        filterMap_parenOf?_of_allBlank hw, filterMap_parenOf?_of_allBlank hg,
        Token.filterMap_parenOf? ht, ih, List.nil_append, List.append_nil, ← List.filter_append,
        List.singleton_append]

/-! ### Balance -/

theorem count_filterMap_parenOf? {t : Token} {c : Char} (ht : t.isParen = true)
    (htext : t.text = c.toString) (cs : List Char) :
    (cs.filterMap parenOf?).count t = cs.count c := by
  rw [List.count_filterMap]
  refine List.countP_congr fun d _ => ?_
  rw [beq_iff_eq, beq_iff_eq, parenOf?_eq_some_iff, htext, Char.toString_eq_singleton,
    Char.toString_eq_singleton, String.singleton_inj]
  exact ⟨fun h => h.2.symm, fun h => ⟨ht, h.symm⟩⟩

/-- The excess of characters is that of the parentheses among them. -/
theorem charExcess_eq (cs : List Char) : charExcess cs = excess (cs.filterMap parenOf?) := by
  have hleft : (cs.filterMap parenOf?).count .leftParen = cs.count '(' :=
    count_filterMap_parenOf? rfl rfl cs
  have hright : (cs.filterMap parenOf?).count .rightParen = cs.count ')' :=
    count_filterMap_parenOf? rfl rfl cs
  rw [charExcess, excess, surplus, surplus, hleft, hright]

/-- Other tokens than parentheses add nothing to an excess. -/
theorem excess_filter_isParen (ts : List Token) : excess (ts.filter (·.isParen)) = excess ts := by
  rw [excess, excess, surplus, surplus, List.count_filter rfl, List.count_filter rfl]

/-- The beginnings of a list give all beginnings of what is selected from it, and no others. -/
theorem forall_take_filterMap_iff {α : Type} {f : α → Option Token} {xs : List α} :
    (∀ k ≤ xs.length, excess ((xs.take k).filterMap f) ≤ 0) ↔
      ∀ us, us <+: xs.filterMap f → excess us ≤ 0 := by
  constructor
  · intro h us hus
    obtain ⟨ys, hys, rfl⟩ := List.prefix_filterMap_iff.1 hus
    rw [List.prefix_iff_eq_take.1 hys]
    exact h _ hys.length_le
  · intro h k _
    exact h _ ((List.take_prefix k xs).filterMap f)

theorem opened_iff_parens {ts : List Token} :
    Opened ts ↔ ∀ us, us <+: ts.filter (·.isParen) → excess us ≤ 0 := by
  rw [← List.filterMap_eq_filter, ← forall_take_filterMap_iff]
  refine forall₂_congr fun k _ => ?_
  rw [List.filterMap_eq_filter, excess_filter_isParen]

/-- In a text every beginning has opened what it closes **where this holds of its tokens**. -/
theorem charExcess_le_iff_opened {s : String} :
    (∀ k ≤ s.toList.length, charExcess (s.toList.take k) ≤ 0) ↔ Opened (tokenize s) := by
  rw [opened_iff_parens, ← (spells_tokenize s).parens, ← forall_take_filterMap_iff]
  refine forall₂_congr fun k _ => ?_
  rw [charExcess_eq]

/-- A conversion breaks at a right parenthesis **exactly if some beginning of the text** has more
right parentheses than left ones. -/
theorem convert_tokenize_eq_unopened_iff {s : String} :
    convert (tokenize s) = .error .unopened ↔
      ∃ k ≤ s.toList.length, 0 < charExcess (s.toList.take k) := by
  rw [convert_eq_unopened_iff, ← charExcess_le_iff_opened]
  simp only [not_forall, Int.not_le, exists_prop]

/-- A text balances **where its tokens match**. -/
theorem balanced_iff_matched {s : String} : Balanced s.toList ↔ Matched (tokenize s) := by
  rw [Balanced, matched_iff, charExcess_le_iff_opened, charExcess_eq, (spells_tokenize s).parens,
    excess_filter_isParen]

/-! ### The line of a postfix form -/

namespace Postfix

variable {s : String} {p q : Postfix}

theorem parse_eq_ok_iff : parse s = .ok p ↔ convert (tokenize s) = .ok p.tokens := by
  unfold parse
  cases convert (tokenize s) with
  | error m => constructor <;> intro h <;> cases h
  | ok out =>
      constructor
      · intro h
        cases h
        rfl
      · intro h
        cases h
        rfl

/-- What is parsed from a text can be spelled. -/
theorem isPlain_of_parse (h : parse s = .ok p) : ∀ t ∈ p.tokens, t.isPlain = true :=
  fun t ht => (spells_tokenize s).isPlain t (mem_of_convert (parse_eq_ok_iff.1 h) ht)

/-- A printed line is **cut into the tokens of the form**. -/
theorem tokenize_line (h : ∀ t ∈ p.tokens, t.isPlain = true) :
    tokenize (p.text ++ "\n") = p.tokens := by
  -- no operand goes on into the end of the line
  have hseam : tokenize (p.text ++ "\n") = tokenize p.text ++ tokenize "\n" := by
    refine tokenize_append fun _ _ d hd _ => ?_
    cases hd
    rfl
  rw [hseam, tokenize_text h]
  exact List.append_nil _

/-- Spaces cut a line into **the texts of the form**; of no texts the line is empty. -/
theorem pieces_text (h : ∀ t ∈ p.tokens, t.isPlain = true) :
    pieces ' ' p.text = if p.texts = [] then [""] else p.texts := by
  -- the line is cut nowhere else, for no text of a token has a space
  refine String.toList_split_intercalate fun text htext hspace => ?_
  obtain ⟨t, ht, rfl⟩ := List.mem_map.1 htext
  have hblank := Token.not_isBlank_of_mem (h t ht) hspace
  cases hblank

/-- Forms that can be spelled are **told apart by their lines**. -/
theorem eq_iff_text_eq (hp : ∀ t ∈ p.tokens, t.isPlain = true)
    (hq : ∀ t ∈ q.tokens, t.isPlain = true) : p = q ↔ p.text = q.text := by
  constructor
  · rintro rfl
    rfl
  · intro h
    have htokens : p.tokens = q.tokens := by
      rw [← tokenize_text hp, h, tokenize_text hq]
    cases p
    cases q
    exact congrArg Postfix.mk htokens

end Postfix

/-! ### The program -/

theorem postfixTexts_of_parse_ok {s : String} {p : Postfix} (h : Postfix.parse s = .ok p) :
    postfixTexts s = .ok p.texts := by
  rw [postfixTexts, h]
  rfl

theorem answer_of_parse_ok {s : String} {p : Postfix} (h : Postfix.parse s = .ok p)
    (program : String) (later : List String) :
    answer program (s :: later) = ⟨0, p.text ++ "\n", ""⟩ := by
  simp only [answer, h]

/-- A conversion that fails makes **everything fail for the same reason**. -/
theorem answer_of_convert_error {s : String} {m : Mismatch} (h : convert (tokenize s) = .error m)
    (program : String) (later : List String) :
    Postfix.parse s = .error m ∧ postfixTexts s = .error m ∧
      answer program (s :: later) = ⟨1, "", failure s m⟩ := by
  have hparse : Postfix.parse s = .error m := by
    rw [Postfix.parse, h]
    rfl
  refine ⟨hparse, ?_, ?_⟩
  · rw [postfixTexts, hparse]
    rfl
  · simp only [answer, hparse]

/-- **What the program answers** to a text is told by the parentheses in it, and whatever else
converts the text agrees.  If they balance, a line is printed in which the tokens of the postfix
form are found again, and between the spaces their texts.  Otherwise there is a report: of a right
parenthesis that came too early if some beginning has more right ones than left ones, and of a left
one that was never closed if none has.  It quotes the text and has the message of the mismatch on a
line of its own, and no other text or mismatch has the same report.  Postfix forms that are parsed are
told apart by their lines. -/
theorem answer_by_balance (program s : String) (later : List String) :
    (Balanced s.toList →
      ∃ form, convert (tokenize s) = .ok form.tokens ∧ Postfix.parse s = .ok form ∧
        postfixTexts s = .ok form.texts ∧
        answer program (s :: later) = ⟨0, form.text ++ "\n", ""⟩ ∧
        tokenize (answer program (s :: later)).stdout = form.tokens ∧
        pieces ' ' form.text = if form.texts = [] then [""] else form.texts) ∧
    (¬ Balanced s.toList →
      ∃ m, convert (tokenize s) = .error m ∧ Postfix.parse s = .error m ∧
        postfixTexts s = .error m ∧ answer program (s :: later) = ⟨1, "", failure s m⟩ ∧
        pieces '\n' (answer program (s :: later)).stderr =
          pieces '\n' ("Error: could not convert `" ++ s ++ "`") ++
            ["", "Caused by:", "    " ++ m.message, ""] ∧
        (∀ s' m', (answer program (s :: later)).stderr = failure s' m' ↔ s = s' ∧ m = m') ∧
        ((∃ k ≤ s.toList.length, 0 < charExcess (s.toList.take k)) → m = .unopened) ∧
        ((∀ k ≤ s.toList.length, charExcess (s.toList.take k) ≤ 0) → m = .unclosed)) ∧
    ∀ s' p p', Postfix.parse s = .ok p → Postfix.parse s' = .ok p' →
      (p = p' ↔ p.text = p'.text) := by
  refine ⟨fun h => ?_, fun h => ?_, fun s' p p' hp hp' => ?_⟩
  · obtain ⟨out, hout⟩ := exists_convert_eq_ok_iff.2 (balanced_iff_matched.1 h)
    have hparse : Postfix.parse s = .ok ⟨out⟩ := Postfix.parse_eq_ok_iff.2 hout
    have hplain := Postfix.isPlain_of_parse hparse
    have hanswer := answer_of_parse_ok hparse program later
    refine ⟨⟨out⟩, hout, hparse, postfixTexts_of_parse_ok hparse, hanswer, ?_,
      Postfix.pieces_text hplain⟩
    rw [hanswer]
    exact Postfix.tokenize_line hplain
  · rw [balanced_iff_matched] at h
    cases hconv : convert (tokenize s) with
    | ok out => exact absurd (exists_convert_eq_ok_iff.1 ⟨out, hconv⟩) h
    | error m =>
        obtain ⟨hparse, htexts, hanswer⟩ := answer_of_convert_error hconv program later
        have hstderr : (answer program (s :: later)).stderr = failure s m := by rw [hanswer]
        refine ⟨m, rfl, hparse, htexts, hanswer, ?_, fun s' m' => ?_, fun hearly => ?_,
          fun hnone => ?_⟩
        · rw [hstderr]
          exact pieces_failure s m
        · rw [hstderr]
          exact failure_inj
        · have hunopened := convert_tokenize_eq_unopened_iff.2 hearly
          rw [hconv] at hunopened
          exact Except.error.inj hunopened
        · cases m with
          | unclosed => rfl
          | unopened =>
              obtain ⟨k, hk, hpos⟩ := convert_tokenize_eq_unopened_iff.1 hconv
              exact absurd (hnone k hk) (Int.not_le.2 hpos)
  · exact Postfix.eq_iff_text_eq (Postfix.isPlain_of_parse hp) (Postfix.isPlain_of_parse hp')

/-- A line, a report of each kind, and two lines that differ in the order of their operands. -/
theorem answer_by_balance_three_answers :
    let form : Postfix := ⟨[.operand "a", .operand "b", .operator (.binary .conj)]⟩
    let form' : Postfix := ⟨[.operand "b", .operand "a", .operator (.binary .conj)]⟩
    answer "yard" ["(a) &b", ")"] = ⟨0, "a b &\n", ""⟩ ∧
      answer "yard" ["a)("] = ⟨1, "", "Error: could not convert `a)(`\n\nCaused by:\n" ++
        "    mismatched parentheses: missing matching left parenthesis\n"⟩ ∧
      answer "yard" ["(a", ")"] = ⟨1, "", "Error: could not convert `(a`\n\nCaused by:\n" ++
        "    mismatched parentheses: leftover parenthesis in operator stack\n"⟩ ∧
      form.text ≠ form'.text := by
  intro form form'
  obtain ⟨hbalanced, -, hlines⟩ := answer_by_balance "yard" "(a) &b" [")"]
  obtain ⟨-, hearly, -⟩ := answer_by_balance "yard" "a)(" []
  obtain ⟨-, hlate, -⟩ := answer_by_balance "yard" "(a" [")"]
  have hform : Postfix.parse "(a) &b" = .ok form := rfl
  have hform' : Postfix.parse "b&a" = .ok form' := rfl
  refine ⟨?_, ?_, ?_, ?_⟩
  · obtain ⟨p, -, hparse, -, hanswer, -⟩ := hbalanced (by decide)
    rw [hform] at hparse
    cases hparse
    exact hanswer
  · obtain ⟨m, -, -, -, hanswer, -, -, hunopened, -⟩ := hearly (by decide)
    rw [hanswer, hunopened ⟨2, by decide, by decide⟩]
    rfl
  · obtain ⟨m, -, -, -, hanswer, -, -, -, hunclosed⟩ := hlate (by decide)
    rw [hanswer, hunclosed (by decide)]
    rfl
  · intro htext
    have heq := (hlines _ _ _ hform hform').2 htext
    exact absurd heq (by decide)

end Polish
