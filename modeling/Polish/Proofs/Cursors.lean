/-
**Reading by turns is moving cursors.**

A source remembers only what it has not given yet, and whoever asks it does not see where it stands.
Everything that can be seen is the same as with a cursor: a list of all its tokens, with the number
of those that have been consumed.  A question is answered from the tokens ahead of the cursor, and
the cursor moves on by the number of tokens that the question consumes.  Several sources that are
asked by turns are as many cursors that know nothing of each other.

Main definitions:

* `Polish.reach` — how many tokens a conversion takes from those that are offered to it;
* `Polish.Query.answer`, `Polish.Query.demand` — the **answer** to a question on a list of tokens,
  and the number of tokens that it consumes;
* `Polish.consumed`, `Polish.ahead` — where a cursor stands after some questions, and what is ahead
  of it then;
* `Polish.playAll` — the answers to a series of questions, with the sources after that.

Main results:

* `Polish.Query.ask_fst`, `Polish.Query.tokens_ask_snd` — **one question** to a source is answered
  from the list of its tokens, and takes a beginning of that list away;
* `Polish.tokens_after` — some questions move the cursor;
* `Polish.exists_playAll` — each of several sources sees the questions to it, and no others;
* `Polish.replies_of_lexers` — **lexers by turns are independent cursors** over the tokens of their
  texts.
-/

import Polish.Proofs.Balance
import Polish.Lexer
import Polish.Session

set_option relaxedAutoImplicit false
set_option autoImplicit false

namespace Polish

/-! ### What a question consumes -/

/-- The number of tokens that a conversion takes from the tokens `ts` that are offered to it: if it
fails at a right parenthesis, those up to the first one that has no partner, and all otherwise. -/
def reach (ts : List Token) : Nat :=
  match convert ts with
  | .error .unopened => (breach? ts).getD ts.length
  | _ => ts.length

theorem reach_of_isBreach {ts : List Token} {n : Nat} (h : IsBreach ts n) : reach ts = n := by
  have hconvert := convert_eq_unopened_iff.2 (exists_isBreach_iff.1 ⟨n, h⟩)
  rw [reach, hconvert, breach?_eq_some_iff.2 h]
  rfl

theorem reach_of_opened {ts : List Token} (h : Opened ts) : reach ts = ts.length := by
  have hconvert : convert ts ≠ .error .unopened := fun hc => convert_eq_unopened_iff.1 hc h
  unfold reach
  split
  · next hc => exact absurd hc hconvert
  · rfl

/-- A conversion takes no more than is offered to it. -/
theorem reach_le (ts : List Token) : reach ts ≤ ts.length := by
  by_cases h : Opened ts
  · rw [reach_of_opened h]
  · obtain ⟨n, hn⟩ := exists_isBreach_iff.2 h
    rw [reach_of_isBreach hn]
    exact hn.le_length

namespace Query

/-- The answer to a question when `ts` are the tokens to come. -/
def answer : Query → List Token → Reply
  | .next, ts => .token ts.head?
  | .nth n, ts => .token ts[n]?
  | .take n, ts => .tokens (ts.take n)
  | .rest, ts => .tokens ts
  | .count, ts => .count ts.length
  | .convert, ts => .outcome (Polish.convert ts)
  | .convertTake n, ts => .outcome (Polish.convert (ts.take n))

/-- The number of tokens that a question consumes when `ts` are the tokens to come. -/
def demand : Query → List Token → Nat
  | .next, ts => min 1 ts.length
  | .nth n, ts => min (n + 1) ts.length
  | .take n, ts => min n ts.length
  | .rest, ts => ts.length
  | .count, ts => ts.length
  | .convert, ts => reach ts
  | .convertTake n, ts => reach (ts.take n)

theorem demand_le (q : Query) (ts : List Token) : q.demand ts ≤ ts.length := by
  cases q with
  | next => exact Nat.min_le_right 1 _
  | nth n => exact Nat.min_le_right (n + 1) _
  | take n => exact Nat.min_le_right n _
  | rest => exact Nat.le_refl _
  | count => exact Nat.le_refl _
  | convert => exact reach_le ts
  | convertTake n => exact Nat.le_trans (reach_le (ts.take n)) (List.length_take_le' n ts)

end Query

/-! ### One source -/

section OneSource

variable {σ : Type} [Source σ]

theorem pull_fst (limit : Nat) (s : σ) :
    (({} : Yard).pull limit s).1 = runOf ((Source.tokens s).take limit) := by
  rw [Yard.pull_eq_feed, Source.take_fst]
  rfl

/-- What a conversion leaves of a source is what lies behind its reach. -/
theorem tokens_pull_snd (limit : Nat) (s : σ) :
    Source.tokens (({} : Yard).pull limit s).2 =
      (Source.tokens s).drop (reach ((Source.tokens s).take limit)) := by
  rw [← Source.take_fst]
  by_cases h : Opened (Source.take limit s).1
  · rw [pull_of_opened_take h, reach_of_opened h, Source.tokens_take_snd, Source.take_fst,
      List.length_take]
    exact List.drop_eq_drop_min
  · obtain ⟨n, hn⟩ := exists_isBreach_iff.2 h
    rw [pull_of_isBreach_take hn, reach_of_isBreach hn, Source.tokens_skip]

/-- The limit of a conversion without limit is none. -/
theorem take_size_add_one (s : σ) :
    (Source.tokens s).take (Source.size s + 1) = Source.tokens s := by
  rw [← Source.take_fst, Source.take_fst_eq_tokens (Nat.lt_succ_self _)]

namespace Query

/-- A source **answers from the list of its tokens**. -/
theorem ask_fst (q : Query) (s : σ) : (q.ask s).1 = q.answer (Source.tokens s) := by
  cases q with
  | next => exact congrArg Reply.token (Source.next_fst s)
  | nth n => exact congrArg Reply.token (Source.nth_fst n s)
  | take n => exact congrArg Reply.tokens (Source.take_fst n s)
  | rest => rfl
  | count => rfl
  | convert =>
      have hrun := pull_fst (Source.size s + 1) s
      rw [take_size_add_one] at hrun
      exact congrArg (fun r : Run => Reply.outcome r.outcome) hrun
  | convertTake n => exact congrArg (fun r : Run => Reply.outcome r.outcome) (pull_fst n s)

/-- What a question leaves of a source is what lies **behind the tokens that it consumes**. -/
theorem tokens_ask_snd (q : Query) (s : σ) :
    Source.tokens (q.ask s).2 = (Source.tokens s).drop (q.demand (Source.tokens s)) := by
  cases q with
  | next =>
      refine (Source.tokens_next_snd s).trans ?_
      rw [demand, ← List.drop_eq_drop_min, List.drop_one]
  | nth n =>
      refine (Source.tokens_nth_snd n s).trans ?_
      rw [demand, ← List.drop_eq_drop_min]
  | take n =>
      refine (Source.tokens_take_snd n s).trans ?_
      rw [demand, ← List.drop_eq_drop_min]
  | rest =>
      refine (Source.tokens_rest_snd s).trans ?_
      rw [demand, List.drop_length]
  | count =>
      refine (Source.tokens_rest_snd s).trans ?_
      rw [demand, List.drop_length]
  | convert =>
      refine (tokens_pull_snd (Source.size s + 1) s).trans ?_
      rw [demand, take_size_add_one]
  | convertTake n => exact tokens_pull_snd n s

end Query

/-! ### A cursor -/

/-- The number of the tokens `ts` that are consumed by some questions, one after another. -/
def consumed (ts : List Token) (queries : List Query) : Nat :=
  queries.foldl (fun k q => k + q.demand (ts.drop k)) 0

/-- The tokens that are to come after some questions. -/
def ahead (ts : List Token) (queries : List Query) : List Token := ts.drop (consumed ts queries)

/-- A source after some questions. -/
def after (s : σ) (queries : List Query) : σ := queries.foldl (fun s q => (q.ask s).2) s

theorem consumed_concat (ts : List Token) (queries : List Query) (q : Query) :
    consumed ts (queries ++ [q]) = consumed ts queries + q.demand (ahead ts queries) := by
  rw [consumed, List.foldl_append]
  rfl

theorem after_concat (s : σ) (queries : List Query) (q : Query) :
    after s (queries ++ [q]) = (q.ask (after s queries)).2 := by
  rw [after, List.foldl_append]
  rfl

/-- Some questions **move the cursor**. -/
theorem tokens_after (s : σ) (queries : List Query) :
    Source.tokens (after s queries) = ahead (Source.tokens s) queries := by
  induction queries using List.reverseRecOn with
  | nil => rfl
  | append_singleton queries q ih =>
      rw [after_concat, Query.tokens_ask_snd, ih, ahead, ahead, consumed_concat, List.drop_drop]
      rfl

/-- A cursor never passes the end. -/
theorem consumed_le (ts : List Token) (queries : List Query) : consumed ts queries ≤ ts.length := by
  induction queries using List.reverseRecOn with
  | nil => exact Nat.zero_le _
  | append_singleton queries q ih =>
      have hq : q.demand (ahead ts queries) ≤ ts.length - consumed ts queries :=
        Nat.le_trans (q.demand_le _) (Nat.le_of_eq List.length_drop)
      rw [consumed_concat]
      omega

/-- A cursor that has come to the end stays there. -/
theorem ahead_append_of_nil {ts : List Token} {queries : List Query} (h : ahead ts queries = [])
    (more : List Query) : ahead ts (queries ++ more) = [] := by
  induction more using List.reverseRecOn with
  | nil => rwa [List.append_nil]
  | append_singleton more q ih =>
      rw [ahead, ← List.append_assoc, consumed_concat, ← List.drop_drop]
      exact (congrArg (List.drop _) ih).trans List.drop_nil

end OneSource

/-! ### Several sources -/

section SeveralSources

variable {σ : Type} [Source σ]

/-- The answers to a series of questions, and all sources after that. -/
def playAll (sources : List σ) : List Turn → Option (List Reply × List σ)
  | [] => some ([], sources)
  | turn :: turns =>
    match turn.play sources with
    | none => none
    | some (reply, sources') => (playAll sources' turns).map fun (rs, ss) => (reply :: rs, ss)

theorem replies_eq_playAll (sources : List σ) (turns : List Turn) :
    replies sources turns = (playAll sources turns).map Prod.fst := by
  induction turns generalizing sources with
  | nil => rfl
  | cons turn turns ih =>
      rw [replies, playAll]
      cases turn.play sources with
      | none => rfl
      | some p =>
          obtain ⟨reply, sources'⟩ := p
          simp only [ih, Option.map_map]
          rfl

/-- The questions that some turns put to the source at a place. -/
def queriesAt (place : Nat) (turns : List Turn) : List Query :=
  (turns.filter (·.place == place)).map Turn.query

theorem queriesAt_cons_self (turn : Turn) (turns : List Turn) :
    queriesAt turn.place (turn :: turns) = turn.query :: queriesAt turn.place turns := by
  rw [queriesAt, List.filter_cons_of_pos (by simp)]
  rfl

theorem queriesAt_cons_of_ne {turn : Turn} {i : Nat} (h : turn.place ≠ i) (turns : List Turn) :
    queriesAt i (turn :: turns) = queriesAt i turns := by
  rw [queriesAt, List.filter_cons_of_neg (by simpa using h)]
  rfl

theorem queriesAt_append (place : Nat) (turns more : List Turn) :
    queriesAt place (turns ++ more) = queriesAt place turns ++ queriesAt place more := by
  rw [queriesAt, List.filter_append, List.map_append]
  rfl

/-- What is at its end after some turns is at its end after more of them. -/
theorem ahead_queriesAt_of_nil {ts : List Token} {place k m : Nat} {turns : List Turn} (hk : k ≤ m)
    (h : ahead ts (queriesAt place (turns.take k)) = []) :
    ahead ts (queriesAt place (turns.take m)) = [] := by
  obtain ⟨more, hmore⟩ := List.take_prefix_take_left (l := turns) hk
  rw [← hmore, queriesAt_append]
  exact ahead_append_of_nil h _

/-- **One turn**: the source in question answers, and no other source changes. -/
theorem exists_play {sources : List σ} {turn : Turn} (h : turn.place < sources.length) :
    ∃ s, sources[turn.place]? = some s ∧
      turn.play sources = some ((turn.query.ask s).1, sources.set turn.place (turn.query.ask s).2) := by
  refine ⟨sources[turn.place], List.getElem?_eq_getElem h, ?_⟩
  rw [Turn.play, List.getElem?_eq_getElem h]

/-- What a turn leaves of the sources, and what more turns make of it. -/
theorem map_after_set {sources : List σ} {turn : Turn} {s : σ}
    (h : sources[turn.place]? = some s) (i : Nat) (turns : List Turn) :
    (sources.set turn.place (turn.query.ask s).2)[i]?.map (after · (queriesAt i turns)) =
      sources[i]?.map (after · (queriesAt i (turn :: turns))) := by
  by_cases hi : turn.place = i
  · subst hi
    rw [List.getElem?_set_self (List.getElem?_eq_some_iff.1 h).1, h, queriesAt_cons_self]
    rfl
  · rw [List.getElem?_set_ne hi, queriesAt_cons_of_ne hi]

/-- **Each source sees the questions to it**, in their order, and no others. -/
theorem exists_playAll {sources : List σ} {turns : List Turn}
    (h : ∀ turn ∈ turns, turn.place < sources.length) :
    ∃ rs ss, playAll sources turns = some (rs, ss) ∧ rs.length = turns.length ∧
      (∀ i, ss[i]? = sources[i]?.map (after · (queriesAt i turns))) ∧
      ∀ m turn, turns[m]? = some turn →
        rs[m]? = (sources[turn.place]?.map (after · (queriesAt turn.place (turns.take m)))).map
          fun s => (turn.query.ask s).1 := by
  induction turns generalizing sources with
  | nil => exact ⟨[], sources, rfl, rfl, fun i => Option.map_id'.symm, by simp⟩
  | cons turn turns ih =>
      -- the first turn changes one source, and for the others it might as well not have been
      obtain ⟨s, hs, hplay⟩ := exists_play (h turn List.mem_cons_self)
      obtain ⟨rs, ss, hrest, hlen, hss, hrs⟩ := @ih
        (sources.set turn.place (turn.query.ask s).2)
        fun u hu => by simpa using h u (List.mem_cons_of_mem turn hu)
      refine ⟨(turn.query.ask s).1 :: rs, ss, ?_, by simp [hlen], fun i => ?_, fun m u hu => ?_⟩
      · rw [playAll, hplay]
        simp only [hrest, Option.map_some]
      · rw [hss, map_after_set hs]
      · cases m with
        | zero =>
            obtain rfl : turn = u := by simpa using hu
            rw [hs]
            rfl
        | succ m =>
            rw [List.getElem?_cons_succ] at hu ⊢
            rw [hrs m u hu, map_after_set hs, List.take_succ_cons]

end SeveralSources

/-- **Lexers that are read by turns are independent cursors** over the tokens of their texts.  Every
question is answered from the tokens ahead of the cursor of its lexer and moves that cursor alone;
once no tokens are ahead, all later answers are those for no tokens. -/
theorem replies_of_lexers (expressions : List String) (turns : List Turn)
    (h : ∀ turn ∈ turns, turn.place < expressions.length) :
    ∃ rs ls, replies (expressions.map Lexer.ofString) turns = some rs ∧
      playAll (expressions.map Lexer.ofString) turns = some (rs, ls) ∧ rs.length = turns.length ∧
      (∀ i e, expressions[i]? = some e →
        ls[i]? = some (after (Lexer.ofString e) (queriesAt i turns)) ∧
        Source.tokens (after (Lexer.ofString e) (queriesAt i turns)) =
          (tokenize e).drop (consumed (tokenize e) (queriesAt i turns)) ∧
        consumed (tokenize e) (queriesAt i turns) ≤ (tokenize e).length) ∧
      ∀ m turn e, turns[m]? = some turn → expressions[turn.place]? = some e →
        rs[m]? = some (turn.query.answer
          (ahead (tokenize e) (queriesAt turn.place (turns.take m)))) ∧
        ∀ k ≤ m, ahead (tokenize e) (queriesAt turn.place (turns.take k)) = [] →
          rs[m]? = some (turn.query.answer []) := by
  obtain ⟨rs, ls, hplay, hlen, hls, hrs⟩ := @exists_playAll _ _
    (expressions.map Lexer.ofString) turns (by simpa using h)
  have hstart : ∀ (i : Nat) (e : String), expressions[i]? = some e →
      (expressions.map Lexer.ofString)[i]? = some (Lexer.ofString e) := by
    intro i e he
    rw [List.getElem?_map, he]
    rfl
  refine ⟨rs, ls, by rw [replies_eq_playAll, hplay]; rfl, hplay, hlen, fun i e he => ?_,
    fun m turn e hm he => ?_⟩
  · refine ⟨?_, tokens_after (Lexer.ofString e) (queriesAt i turns), consumed_le _ _⟩
    rw [hls, hstart i e he]
    rfl
  · have hanswer : rs[m]? = some (turn.query.answer
        (ahead (tokenize e) (queriesAt turn.place (turns.take m)))) := by
      rw [hrs m turn hm, hstart _ e he, Option.map_some, Option.map_some, Query.ask_fst,
        tokens_after]
      rfl
    refine ⟨hanswer, fun k hk hnil => ?_⟩
    rw [hanswer, ahead_queriesAt_of_nil hk hnil]

/-- A conversion that fails in the middle of one text, a question to another text, and what is found
behind the right parenthesis that has no partner. -/
theorem replies_of_lexers_after_failure :
    let expressions := ["a)b c", "!"]
    let turns := [⟨0, .convert⟩, ⟨1, .next⟩, ⟨0, .next⟩]
    (∀ turn ∈ turns, turn.place < expressions.length) ∧
      ∃ rs, replies (expressions.map Lexer.ofString) turns = some rs ∧
        rs[2]? = some (.token (some (.operand "b"))) := by
  intro expressions turns
  have h : ∀ turn ∈ turns, turn.place < expressions.length := by decide
  have htokens : tokenize "a)b c" =
      [.operand "a", .rightParen, .operand "b", .operand "c"] := by decide
  obtain ⟨rs, -, hrs, -, -, -, hanswer⟩ := replies_of_lexers expressions turns h
  refine ⟨h, rs, hrs, ?_⟩
  rw [(hanswer 2 ⟨0, .next⟩ "a)b c" rfl rfl).1, htokens]
  rfl

end Polish
