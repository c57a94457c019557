/-
**What the texts tell.**

Two kinds of text are written for a reader: the report of a failure, and the records of the log.  What
they are about can be read from them again.  A report has its cause on a line of its own, so no
expression hides it, however many lines the expression itself has.  A record is a sentence whose
words are set apart by spaces: its numbers are those of its words that consist of digits, and the
operator that it names stands in quotes at its beginning.  So no two failures have the same report,
and no two records the same text.

Main definitions:

* `Polish.pieces` — what a character cuts a text into: lines, or words;
* `Polish.number?`, `Polish.numbersIn` — the number that a word writes, and **the numbers in a text**;
* `Polish.Record.words`, `Polish.Record.numbers` — the words and the numbers of a record;
* `Polish.Record.popped?`, `Polish.Record.Names` — the operator of a record, and the token that its
  text names.

Main results:

* `Polish.pieces_failure` — **the lines of a report**: the context, and the cause;
* `Polish.failure_inj` — a report tells the expression and the mismatch;
* `Polish.Record.pieces_message`, `Polish.Record.message_inj` — the words of a record, which tell it;
* `Polish.Record.numbersIn_message` — **the numbers in the text** of a record are its numbers;
* `Polish.Record.names_of_popped?`, `Polish.Record.not_names_paren` — the text of a record names its
  operator, and no parenthesis.
-/

import Polish.CommandLine

set_option relaxedAutoImplicit false
set_option autoImplicit false

namespace Polish

/-! ### Pieces of a text -/

/-- The pieces into which the character `c` cuts a text. -/
def pieces (c : Char) (text : String) : List String := (text.split c).toList.map (·.copy)

/-- At a place where the character stands, a text **is cut in two**. -/
theorem pieces_append (c : Char) (s t : String) :
    pieces c (s ++ (String.singleton c ++ t)) = pieces c s ++ pieces c t := by
  rw [pieces, pieces, pieces, String.toList_split_char, String.toList_split_char,
    String.toList_split_char, String.toList_append, String.toList_append, String.toList_singleton,
    List.singleton_append, List.splitOn_append_cons_self, List.map_append]

/-- Texts without the character are found again when it stands between them. -/
theorem pieces_intercalate {c : Char} {texts : List String} (hne : texts ≠ [])
    (h : ∀ text ∈ texts, c ∉ text.toList) :
    pieces c ((String.singleton c).intercalate texts) = texts := by
  have hpieces := String.toList_split_intercalate h
  rwa [if_neg hne] at hpieces

/-! ### The report of a failure -/

/-- A mismatch is told by its message. -/
theorem Mismatch.message_inj {m m' : Mismatch} : m.message = m'.message ↔ m = m' := by
  cases m <;> cases m' <;> decide

/-- **The lines of a report** are those of the context, which quotes the expression, and behind an
empty line the cause. -/
theorem pieces_failure (expression : String) (m : Mismatch) :
    pieces '\n' (failure expression m) =
      pieces '\n' ("Error: could not convert `" ++ expression ++ "`") ++
        ["", "Caused by:", "    " ++ m.message, ""] := by
  have hcause : ∀ text ∈ ["", "Caused by:", "    " ++ m.message, ""], '\n' ∉ text.toList := by
    cases m with
    | _ =>
        unfold Mismatch.message
        simp [Mismatch.detail]
  have hsplit : failure expression m = "Error: could not convert `" ++ expression ++ "`" ++
      (String.singleton '\n' ++
        (String.singleton '\n').intercalate ["", "Caused by:", "    " ++ m.message, ""]) := by
    apply String.toList_injective
    unfold failure
    simp
  rw [hsplit, pieces_append, pieces_intercalate (List.cons_ne_nil _ _) hcause]

/-- A report tells **the expression and the mismatch**. -/
theorem failure_inj {expression expression' : String} {m m' : Mismatch} :
    failure expression m = failure expression' m' ↔ expression = expression' ∧ m = m' := by
  constructor
  · intro h
    -- the cause is the last line but one, whatever the lines before it are
    have hlines := congrArg (pieces '\n') h
    rw [pieces_failure, pieces_failure] at hlines
    obtain ⟨-, hcause⟩ := List.append_inj' hlines (by simp only [List.length_cons])
    have hm : m = m' := by
      simpa [Mismatch.message_inj] using hcause
    subst hm
    unfold failure at h
    simp only [String.append_left_inj, String.append_right_inj] at h
    exact ⟨h, rfl⟩
  · rintro ⟨rfl, rfl⟩
    rfl

/-! ### Numbers among the words -/

/-- The number that a word writes, if it consists of digits. -/
def number? (word : String) : Option Nat :=
  if word.toList ≠ [] ∧ word.toList.all Char.isDigit then
    some (Nat.ofDigitChars 10 word.toList 0)
  else none

/-- The numbers among the words of a text, in their order. -/
def numbersIn (text : String) : List Nat := (pieces ' ' text).filterMap number?

/-- A word with another character writes no number. -/
theorem number?_of_any {word : String} (h : word.toList.any (!·.isDigit) = true) :
    number? word = none := by
  refine if_neg fun hword => ?_
  obtain ⟨c, hc, hdigit⟩ := List.any_eq_true.1 h
  rw [List.all_eq_true.1 hword.2 c hc] at hdigit
  cases hdigit

/-- A number is **read again** from the word that writes it. -/
theorem number?_repr (n : Nat) : number? n.repr = some n := by
  have hdigits : (Nat.toDigits 10 n).all Char.isDigit = true :=
    List.all_eq_true.2 fun _ => Nat.isDigit_of_mem_toDigits (by decide) (by decide)
  rw [number?, Nat.toList_repr, if_pos ⟨Nat.toDigits_ne_nil, hdigits⟩,
    Nat.ofDigitChars_ten_toDigits]

theorem not_mem_toDigits (n : Nat) : ' ' ∉ Nat.toDigits 10 n := by
  intro h
  have hdigit := Nat.isDigit_of_mem_toDigits (by decide) (by decide) h
  cases hdigit

/-! ### The records of the log -/

/-- The operator `o` in quotes. -/
def Operator.quoted (o : Operator) : String := "`" ++ o.text ++ "`"

namespace Operator

theorem toList_quoted (o : Operator) : o.quoted.toList = ['`', o.symbol, '`'] := by
  simp [quoted, text]

theorem quoted_inj {o o' : Operator} : o.quoted = o'.quoted ↔ o = o' := by
  constructor
  · intro h
    have hsymbol : o'.symbol = o.symbol := by
      have hlist := congrArg String.toList h
      rw [toList_quoted, toList_quoted] at hlist
      exact (List.cons.inj (List.cons.inj hlist).2).1.symm
    -- a character is the symbol of one operator only
    have hread := ofSymbol?_symbol o'
    rw [hsymbol, ofSymbol?_symbol] at hread
    exact Option.some.inj hread
  · rintro rfl
    rfl

theorem not_mem_quoted (o : Operator) : ' ' ∉ o.quoted.toList := by
  rw [toList_quoted]
  cases o with
  | binary c => cases c <;> decide
  | neg => decide

theorem number?_quoted (o : Operator) : number? o.quoted = none := by
  refine number?_of_any ?_
  rw [toList_quoted]
  rfl

end Operator

namespace Record

/-- The words of a record. -/
def words : Record → List String
  | .yields top incoming => [top.quoted, "yields", "to", incoming.quoted]
  | .closes top => [top.quoted, "closed", "by", "`)`"]
  | .unopened position =>
      ["`)`", "without", "a", "matching", "`(`", "at", "token", toString position]
  | .unclosed read => ["unclosed", "`(`", "after", toString read, "tokens"]
  | .converted read size =>
      ["converted", toString read, "tokens", "into", toString size, "postfix", "tokens"]

/-- The numbers of a record. -/
def numbers : Record → List Nat
  | .yields _ _ => []
  | .closes _ => []
  | .unopened position => [position]
  | .unclosed read => [read]
  | .converted read size => [read, size]

/-- A record is written with spaces between its words. -/
theorem message_eq (record : Record) :
    record.message = (String.singleton ' ').intercalate record.words := by
  apply String.toList_injective
  cases record with
  | _ =>
      unfold message
      simp [words, Operator.quoted]

theorem not_mem_words {record : Record} : ∀ word ∈ record.words, ' ' ∉ word.toList := by
  cases record with
  | _ => simp [words, Operator.not_mem_quoted, not_mem_toDigits]

/-- Spaces cut the text of a record into **its words**. -/
theorem pieces_message (record : Record) : pieces ' ' record.message = record.words := by
  have hne : record.words ≠ [] := by
    cases record with
    | _ => exact List.cons_ne_nil _ _
  rw [message_eq, pieces_intercalate hne not_mem_words]

/-- **The numbers in the text** of a record are its numbers. -/
theorem numbersIn_message (record : Record) : numbersIn record.message = record.numbers := by
  rw [numbersIn, pieces_message]
  cases record with
  | _ => simp [words, numbers, number?_repr, Operator.number?_quoted, number?_of_any]

/-- The text of a record **tells the record**. -/
theorem message_inj {record record' : Record} :
    record.message = record'.message ↔ record = record' := by
  constructor
  · intro h
    have hwords : record.words = record'.words := by
      rw [← pieces_message, h, pieces_message]
    have hnumbers : record.numbers = record'.numbers := by
      rw [← numbersIn_message, h, numbersIn_message]
    clear h
    -- records of different kinds differ in their third words
    cases record <;> cases record' <;> simp_all [words, numbers, Operator.quoted_inj]
  · rintro rfl
    rfl

/-! ### The operator that a record names -/

/-- The operator that a record names as leaving the stack. -/
def popped? : Record → Option Operator
  | .yields top _ => some top
  | .closes top => some top
  | _ => none

/-- The text of the record begins with the token `t` in quotes. -/
def Names (record : Record) (t : Token) : Prop :=
  '`' :: (t.text.toList ++ ['`']) <+: record.message.toList

theorem quoted_prefix (s rest : String) {tail : List Char} (h : rest.toList = '`' :: tail) :
    '`' :: (s.toList ++ ['`']) <+: ("`" ++ s ++ rest).toList := by
  refine ⟨tail, ?_⟩
  rw [String.toList_append, String.toList_append, h, List.cons_append, List.append_assoc]
  rfl

/-- The operator that leaves the stack is what the text of its record names. -/
theorem names_of_popped? {record : Record} {top : Operator} (h : record.popped? = some top) :
    record.Names (.operator top) := by
  cases record with
  | yields o incoming =>
      cases h
      have hquoted := quoted_prefix top.text "` yields to `" rfl
      unfold Names message
      rw [String.toList_append, String.toList_append]
      exact (hquoted.trans (List.prefix_append _ _)).trans (List.prefix_append _ _)
  | closes o =>
      cases h
      exact quoted_prefix top.text "` closed by `)`" rfl
  | _ => cases h

/-- A text that names an operator **names no parenthesis**. -/
theorem not_names_paren {record : Record} {top : Operator} (h : record.popped? = some top)
    {t : Token} (ht : t.isParen = true) : ¬ record.Names t := by
  rintro ⟨rest, hrest⟩
  obtain ⟨rest', hrest'⟩ := names_of_popped? h
  have htext : (Token.operator top).text.toList = [top.symbol] := String.toList_singleton _
  rw [htext] at hrest'
  -- the character behind the first quote is that of the operator
  have hsecond := (List.cons.inj (hrest.trans hrest'.symm)).2
  have hsymbol : top.symbol ≠ '(' ∧ top.symbol ≠ ')' := by
    cases top with
    | binary c => cases c <;> decide
    | neg => decide
  cases t with
  | leftParen => exact hsymbol.1 (List.cons.inj hsecond).1.symm
  | rightParen => exact hsymbol.2 (List.cons.inj hsecond).1.symm
  | _ => cases ht

end Record

end Polish
