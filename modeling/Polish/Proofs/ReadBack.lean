/-
**The printed postfix form can be read back.**

An expression is a text: it is cut into tokens, these are put into postfix order, and the form is
printed as a line.  If the text writes a tree, then nothing of the tree is lost on the way.  The line
is cut into the same tokens again, since no token in it can be mistaken for another one, and a stack
of trees reads them as the tree that was written.  So the postfix form tells trees apart, and it
tells nothing else apart.

Main definitions:

* `Polish.Expresses` — a text writes a tree, with blanks and redundant parentheses as one likes.

Main results:

* `Polish.Writes.operand_mem` — a tree has no other operands than those of the tokens that write it;
* `Polish.exists_expresses_iff` — the trees that some text writes;
* `Polish.Expresses.parse` — what is parsed from a text that writes a tree is its listing;
* `Polish.parse_unambiguous` — **the printed form is read back as the tree**, and two texts have the
  same form exactly if they write the same tree.
-/

import Polish.Postfix
import Polish.Proofs.Listing
import Polish.Proofs.Spelled

set_option relaxedAutoImplicit false
set_option autoImplicit false

namespace Polish

/-- The text `s` **writes the tree** `t`: it spells tokens that write the tree. -/
def Expresses (s : String) (t : Tree) : Prop := ∃ ts, Writes 0 ts t ∧ Spells ts s.toList

/-! ### The operands of a tree -/

theorem Tree.operand_mem_binary {c : Connective} {l r : Tree} {ls rs : List Token} {text : String}
    (hl : .operand text ∈ l.listing → .operand text ∈ ls)
    (hr : .operand text ∈ r.listing → .operand text ∈ rs)
    (h : .operand text ∈ (Tree.binary c l r).listing) :
    .operand text ∈ ls ++ .operator (.binary c) :: rs := by
  simp only [listing, List.mem_append, List.mem_singleton, reduceCtorEq, or_false] at h
  rcases h with h | h
  · exact List.mem_append_left _ (hl h)
  · exact List.mem_append_right _ (List.mem_cons_of_mem _ (hr h))

/-- A tree has no other operands than those of the tokens that write it. -/
theorem Writes.operand_mem {n : Nat} {ts : List Token} {t : Tree} (h : Writes n ts t)
    {text : String} (hu : .operand text ∈ t.listing) : .operand text ∈ ts := by
  induction h with
  | disj _ _ ihl ihr => exact Tree.operand_mem_binary ihl ihr hu
  | conj _ _ ihl ihr => exact Tree.operand_mem_binary ihl ihr hu
  | equal _ _ ihl ihr => exact Tree.operand_mem_binary ihl ihr hu
  | greater _ _ ihl ihr => exact Tree.operand_mem_binary ihl ihr hu
  | less _ _ ihl ihr => exact Tree.operand_mem_binary ihl ihr hu
  | neg _ ih =>
      simp only [Tree.listing, List.mem_append, List.mem_singleton, reduceCtorEq, or_false] at hu
      exact List.mem_cons_of_mem _ (ih hu)
  | operand text => exact hu
  | group _ ih => exact List.mem_append_left _ (List.mem_cons_of_mem _ (ih hu))
  | tighter _ ih => exact ih hu

/-- The listing of a tree can be spelled if the tokens that write the tree can. -/
theorem Writes.isPlain_listing {n : Nat} {ts : List Token} {t : Tree} (h : Writes n ts t)
    (hts : ∀ u ∈ ts, u.isPlain = true) : ∀ u ∈ t.listing, u.isPlain = true := by
  intro u hu
  cases u with
  | operand text => exact hts _ (h.operand_mem hu)
  | _ => rfl

/-- Parentheses around everything add nothing that cannot be spelled. -/
theorem Tree.isPlain_bracketed {t : Tree} (h : ∀ u ∈ t.listing, u.isPlain = true) :
    ∀ u ∈ t.bracketed, u.isPlain = true := by
  induction t with
  | leaf text => exact h
  | neg t ih =>
      have ih' := ih fun u hu => h u (List.mem_append_left _ hu)
      simp only [bracketed, List.mem_append, List.mem_cons, List.not_mem_nil, or_false]
      rintro u ((rfl | rfl | hu) | rfl)
      · rfl
      · rfl
      · exact ih' u hu
      · rfl
  | binary c l r ihl ihr =>
      have ihl' := ihl fun u hu => h u (List.mem_append_left _ (List.mem_append_left _ hu))
      have ihr' := ihr fun u hu => h u (List.mem_append_left _ (List.mem_append_right _ hu))
      simp only [bracketed, List.mem_append, List.mem_cons, List.not_mem_nil, or_false]
      rintro u ((rfl | hu | rfl | hu) | rfl)
      · rfl
      · exact ihl' u hu
      · rfl
      · exact ihr' u hu
      · rfl

/-- The trees that are written by some text are those **whose operands can be spelled**. -/
theorem exists_expresses_iff {t : Tree} :
    (∃ s, Expresses s t) ↔ ∀ u ∈ t.listing, u.isPlain = true := by
  constructor
  · rintro ⟨s, ts, hw, hs⟩
    exact hw.isPlain_listing hs.isPlain
  · intro h
    exact ⟨" ".intercalate (t.bracketed.map Token.text), t.bracketed,
      (writes_bracketed t).loosen (Nat.zero_le 4),
      spells_intercalate (Tree.isPlain_bracketed h) rfl (by decide)⟩

/-! ### There and back -/

namespace Postfix

/-- The line of a form whose tokens can be spelled is cut into these tokens. -/
theorem tokenize_text {p : Postfix} (h : ∀ t ∈ p.tokens, t.isPlain = true) :
    tokenize p.text = p.tokens :=
  tokenize_of_spells (spells_intercalate h (by decide) (by decide))

end Postfix

namespace Expresses

variable {s : String} {t : Tree}

/-- What is parsed from a text that writes a tree is **the listing of the tree**. -/
theorem parse (h : Expresses s t) : Postfix.parse s = .ok ⟨t.listing⟩ := by
  obtain ⟨ts, hw, hs⟩ := h
  rw [Postfix.parse, tokenize_of_spells hs, hw.adds.convert]
  rfl

theorem tokenize_text (h : Expresses s t) :
    tokenize (Postfix.text ⟨t.listing⟩) = t.listing := by
  obtain ⟨ts, hw, hs⟩ := h
  exact Postfix.tokenize_text (hw.isPlain_listing hs.isPlain)

end Expresses

/-- **The printed postfix form is unambiguous**: a text that writes a tree is parsed, and a stack of
trees that reads the tokens of the printed form never lacks a tree and ends with that tree alone.
So two such texts have the same postfix form exactly if they write the same tree. -/
theorem parse_unambiguous {s s' : String} {t t' : Tree} (h : Expresses s t)
    (h' : Expresses s' t') :
    (∃ p, Postfix.parse s = .ok p ∧ Tree.pushAll? [] (tokenize p.text) = some [t]) ∧
      (Postfix.parse s = Postfix.parse s' ↔ t = t') := by
  refine ⟨⟨_, h.parse, ?_⟩, ?_⟩
  · rw [h.tokenize_text]
    exact Tree.pushAll?_listing t []
  · rw [h.parse, h'.parse]
    constructor
    · intro heq
      simp only [Except.ok.injEq, Postfix.mk.injEq] at heq
      exact Tree.listing_injective heq
    · rintro rfl
      rfl

/-- Two texts that differ in their parentheses alone, and write different trees. -/
theorem parse_unambiguous_regrouped :
    Expresses "a-(b& c)" (.binary .less (.leaf "a") (.binary .conj (.leaf "b") (.leaf "c"))) ∧
    Expresses " a-b &c" (.binary .conj (.binary .less (.leaf "a") (.leaf "b")) (.leaf "c")) ∧
    (∃ p, Postfix.parse "a-(b& c)" = .ok p ∧ Tree.pushAll? [] (tokenize p.text) =
      some [.binary .less (.leaf "a") (.binary .conj (.leaf "b") (.leaf "c"))]) ∧
    Postfix.parse "a-(b& c)" ≠ Postfix.parse " a-b &c" := by
  have hspells : Spells [.operand "a", .operator (.binary .less), .leftParen, .operand "b",
      .operator (.binary .conj), .operand "c", .rightParen] "a-(b& c)".toList :=
    .adjoin rfl rfl <| .adjoin rfl rfl <| .adjoin rfl rfl <| .adjoin rfl rfl <| .adjoin rfl rfl <|
      .blank_append (v := [' ']) rfl <| .adjoin rfl rfl <| .adjoin rfl rfl <| .nil (w := []) rfl
  have hspells' : Spells [.operand "a", .operator (.binary .less), .operand "b",
      .operator (.binary .conj), .operand "c"] " a-b &c".toList :=
    .blank_append (v := [' ']) rfl <| .adjoin rfl rfl <| .adjoin rfl rfl <| .adjoin rfl rfl <|
      .blank_append (v := [' ']) rfl <| .adjoin rfl rfl <| .adjoin rfl rfl <| .nil (w := []) rfl
  have hgroup : Writes 4 [.leftParen, .operand "b", .operator (.binary .conj), .operand "c",
      .rightParen] (.binary .conj (.leaf "b") (.leaf "c")) :=
    .group (.tighter (.conj ((Writes.operand "b").loosen (by decide))
      ((Writes.operand "c").loosen (by decide))))
  have hless : Writes 3 [.operand "a", .operator (.binary .less), .operand "b"]
      (.binary .less (.leaf "a") (.leaf "b")) :=
    .less ((Writes.operand "a").loosen (by decide)) (.operand "b")
  have h : Expresses "a-(b& c)"
      (.binary .less (.leaf "a") (.binary .conj (.leaf "b") (.leaf "c"))) :=
    ⟨_, (Writes.less ((Writes.operand "a").loosen (by decide)) hgroup).loosen (by decide), hspells⟩
  have h' : Expresses " a-b &c"
      (.binary .conj (.binary .less (.leaf "a") (.leaf "b")) (.leaf "c")) :=
    ⟨_, .tighter (.conj (hless.loosen (by decide)) ((Writes.operand "c").loosen (by decide))),
      hspells'⟩
  obtain ⟨hread, hiff⟩ := parse_unambiguous h h'
  exact ⟨h, h', hread, fun heq => absurd (hiff.1 heq) (by decide)⟩

end Polish
