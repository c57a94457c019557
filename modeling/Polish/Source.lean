/-
**Sources of tokens.**

A source gives its tokens one at a time, and what it has given it does not give again.  A list of
tokens is a source, and so is a text that is cut into tokens as they are asked for.  Whoever reads
from a source may stop anywhere, and the next reader goes on from there.

Main definitions:

* `Polish.Source` — a source, with a measure that every token given makes smaller;
* `Polish.Source.skip`, `Polish.Source.nth` — passing over tokens;
* `Polish.Source.take`, `Polish.Source.rest` — the tokens that come next, at most so many or all,
  with what is left of the source;
* `Polish.Source.tokens` — all the tokens that are still to come.

Main results:

* `Polish.Source.take_eq_rest` — a large enough limit is no limit;
* `Polish.Source.rest_eq` — the tokens to come are the next one followed by those after it;
* `Polish.Source.inductionOn` — induction along a source;
* `Polish.Source.next_fst`, `Polish.Source.tokens_next_snd` and the like — **a source is read as the
  list of its tokens**: what each way of reading gives, and which tokens it leaves.
-/

import Polish.Token

set_option relaxedAutoImplicit false
set_option autoImplicit false

namespace Polish

/-- A finite source of tokens, read one token at a time. -/
class Source (σ : Type) where
  /-- The next token, or `none` at the end, and the source after that. -/
  next : σ → Option Token × σ
  /-- An upper bound on the number of tokens to come. -/
  size : σ → Nat
  /-- Giving a token makes the bound smaller. -/
  size_next_lt : ∀ {s : σ} {t : Token}, (next s).1 = some t → size (next s).2 < size s
  /-- A source that has ended stays so. -/
  next_ended : ∀ {s : σ}, (next s).1 = none → (next (next s).2).1 = none

namespace Source

/-- A list of tokens gives its elements in order. -/
instance : Source (List Token) where
  next
    | [] => (none, [])
    | t :: ts => (some t, ts)
  size := List.length
  size_next_lt := by
    intro s t h
    cases s with
    | nil => simp at h
    | cons u us => simp
  next_ended := by
    intro s h
    cases s with
    | nil => rfl
    | cons u us => simp at h

variable {σ : Type} [Source σ]

/-! ### Passing over tokens -/

/-- The source after its next `n` tokens, or after its end if it has fewer. -/
def skip : Nat → σ → σ
  | 0, s => s
  | n + 1, s =>
    match next s with
    | (none, s') => s'
    | (some _, s') => skip n s'

/-- The token that comes after the next `n`. -/
def nth (n : Nat) (s : σ) : Option Token × σ := next (skip n s)

/-! ### Taking tokens -/

/-- Moves the next `n` tokens to the end of `taken`, or all tokens if there are fewer. -/
def takeOnto (taken : Array Token) : Nat → σ → Array Token × σ
  | 0, s => (taken, s)
  | n + 1, s =>
    match next s with
    | (none, s') => (taken, s')
    | (some t, s') => takeOnto (taken.push t) n s'

/-- The next `n` tokens, or all if there are fewer, and what is left of the source. -/
def take (n : Nat) (s : σ) : List Token × σ :=
  let (taken, s') := takeOnto #[] n s
  (taken.toList, s')

/-- All the tokens to come, and the ended source.  Asking once more than the bound of the source
allows is what makes it end. -/
def rest (s : σ) : List Token × σ := take (size s + 1) s

/-- All the tokens to come. -/
def tokens (s : σ) : List Token := (rest s).1

theorem takeOnto_eq (taken : Array Token) (n : Nat) (s : σ) :
    takeOnto taken n s = (taken ++ (take n s).1, (take n s).2) := by
  induction n generalizing taken s with
  | zero => simp [take, takeOnto]
  | succ n ih =>
      simp only [take, takeOnto]
      rcases next s with ⟨_ | t, s'⟩
      · simp
      · simp only
        rw [ih (taken.push t), ih (#[].push t)]
        simp

@[simp] theorem take_zero (s : σ) : take 0 s = ([], s) := rfl

theorem take_succ (n : Nat) (s : σ) :
    take (n + 1) s =
      match next s with
      | (none, s') => ([], s')
      | (some t, s') => (t :: (take n s').1, (take n s').2) := by
  rw [take, takeOnto]
  rcases next s with ⟨_ | t, s'⟩
  · rfl
  · simp only
    rw [takeOnto_eq]
    simp

theorem size_lt_of_next {s s' : σ} {t : Token} (h : next s = (some t, s')) : size s' < size s := by
  simpa [h] using size_next_lt (s := s) (t := t) (by rw [h])

theorem take_congr {n m : Nat} {s : σ} (hn : size s < n) (hm : size s < m) :
    take n s = take m s := by
  induction n generalizing s m with
  | zero => omega
  | succ n ih =>
      obtain ⟨m, rfl⟩ : ∃ k, m = k + 1 := ⟨m - 1, by omega⟩
      rw [take_succ, take_succ]
      rcases hs : next s with ⟨_ | t, s'⟩
      · rfl
      · have := size_lt_of_next hs
        simp only [ih (s := s') (m := m) (by omega) (by omega)]

/-- A limit above the bound of the source is no limit. -/
theorem take_eq_rest {n : Nat} {s : σ} (h : size s < n) : take n s = rest s :=
  take_congr h (Nat.lt_succ_self _)

theorem take_fst_eq_tokens {n : Nat} {s : σ} (h : size s < n) : (take n s).1 = tokens s := by
  rw [take_eq_rest h]
  rfl

/-- The tokens to come are the next one and those that come after it. -/
theorem rest_eq (s : σ) :
    rest s =
      match next s with
      | (none, s') => ([], s')
      | (some t, s') => (t :: (rest s').1, (rest s').2) := by
  rw [rest, take_succ]
  rcases hs : next s with ⟨_ | t, s'⟩
  · rfl
  · simp only [take_eq_rest (size_lt_of_next hs)]

@[simp] theorem rest_list (ts : List Token) : rest ts = (ts, []) := by
  induction ts with
  | nil => rfl
  | cons t ts ih => rw [rest_eq]; simp [next, ih]

@[simp] theorem tokens_list (ts : List Token) : tokens ts = ts := by simp [tokens]

/-! ### A source seen as the list of its tokens -/

/-- What holds of every source that has ended, and of a source if it holds of what one token leaves
of it, holds of **every source**. -/
@[elab_as_elim]
theorem inductionOn {motive : σ → Prop} (s : σ) (ended : ∀ s s', next s = (none, s') → motive s)
    (given : ∀ s t s', next s = (some t, s') → motive s' → motive s) : motive s := by
  induction hn : size s using Nat.strongRecOn generalizing s with
  | ind n ih =>
      rcases hs : next s with ⟨_ | t, s'⟩
      · exact ended s s' hs
      · exact given s t s' hs (ih (size s') (hn ▸ size_lt_of_next hs) s' rfl)

theorem tokens_of_ended {s : σ} (h : (next s).1 = none) : tokens s = [] := by
  rw [tokens, rest_eq]
  rcases hs : next s with ⟨_ | t, s'⟩
  · rfl
  · rw [hs] at h
    cases h

/-- Where the end is met, nothing is to come, and nothing comes later. -/
theorem tokens_of_next_none {s s' : σ} (h : next s = (none, s')) :
    tokens s = [] ∧ tokens s' = [] := by
  have hend : (next s).1 = none := by rw [h]
  have hstay := next_ended hend
  rw [h] at hstay
  exact ⟨tokens_of_ended hend, tokens_of_ended hstay⟩

theorem tokens_of_next {s s' : σ} {t : Token} (h : next s = (some t, s')) :
    tokens s = t :: tokens s' := by
  rw [tokens, rest_eq, h]
  rfl

theorem next_fst (s : σ) : (next s).1 = (tokens s).head? := by
  rcases hs : next s with ⟨_ | t, s'⟩
  · rw [(tokens_of_next_none hs).1]
    rfl
  · rw [tokens_of_next hs]
    rfl

theorem tokens_next_snd (s : σ) : tokens (next s).2 = (tokens s).tail := by
  rcases hs : next s with ⟨_ | t, s'⟩
  · rw [(tokens_of_next_none hs).1]
    exact (tokens_of_next_none hs).2
  · rw [tokens_of_next hs]
    rfl

theorem tokens_skip (n : Nat) (s : σ) : tokens (skip n s) = (tokens s).drop n := by
  induction n generalizing s with
  | zero => rfl
  | succ n ih =>
      rw [skip]
      rcases hs : next s with ⟨_ | t, s'⟩
      · rw [(tokens_of_next_none hs).1, List.drop_nil]
        exact (tokens_of_next_none hs).2
      · rw [tokens_of_next hs, List.drop_succ_cons]
        exact ih s'

theorem nth_fst (n : Nat) (s : σ) : (nth n s).1 = (tokens s)[n]? := by
  rw [nth, next_fst, tokens_skip, List.head?_drop]

theorem tokens_nth_snd (n : Nat) (s : σ) : tokens (nth n s).2 = (tokens s).drop (n + 1) := by
  rw [nth, tokens_next_snd, tokens_skip, List.tail_drop]

theorem take_fst (n : Nat) (s : σ) : (take n s).1 = (tokens s).take n := by
  induction n generalizing s with
  | zero => rfl
  | succ n ih =>
      rw [take_succ]
      rcases hs : next s with ⟨_ | t, s'⟩
      · rw [(tokens_of_next_none hs).1, List.take_nil]
      · rw [tokens_of_next hs, List.take_succ_cons]
        exact congrArg (t :: ·) (ih s')

theorem tokens_take_snd (n : Nat) (s : σ) : tokens (take n s).2 = (tokens s).drop n := by
  induction n generalizing s with
  | zero => rfl
  | succ n ih =>
      rw [take_succ]
      rcases hs : next s with ⟨_ | t, s'⟩
      · rw [(tokens_of_next_none hs).1, List.drop_nil]
        exact (tokens_of_next_none hs).2
      · rw [tokens_of_next hs, List.drop_succ_cons]
        exact ih s'

theorem tokens_rest_snd (s : σ) : tokens (rest s).2 = [] := by
  induction s using inductionOn with
  | ended s s' hs =>
      rw [rest_eq, hs]
      exact (tokens_of_next_none hs).2
  | given s t s' hs ih =>
      rw [rest_eq, hs]
      exact ih

end Source

end Polish
