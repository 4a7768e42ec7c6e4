import EasyLib.Lib.Runs
import EasyLib.Proof.Tokenizing

/-!
# Runs between delimiters

`Tokenize` looks in turn for a character that is no delimiter and for one that is. Each round takes one run
of the string, so the loop follows the derivation of `Runs` for what is left of it, and `pos` is the length
of what is done with.
-/

namespace EasyLib.Common.EasyString

open CppString Tokens Loop

variable {delims front rest gap token : Str} {tokens runs : List Str} {c : Char}

def isDelim (delims : Str) (c : Char) : Bool := decide (c ∈ delims)

theorem findFirstOf_append :
    findFirstOf (front ++ rest) delims front.length =
      (rest.findIdx? (isDelim delims)).map (front.length + ·) := by
  rw [findFirstOf, List.drop_left]
  rfl

theorem findFirstNotOf_append :
    findFirstNotOf (front ++ rest) delims front.length =
      (rest.findIdx? fun c => !isDelim delims c).map (front.length + ·) := by
  have hpred : (fun c => decide (c ∉ delims)) = fun c => !isDelim delims c := by
    funext c
    exact decide_not
  rw [findFirstNotOf, List.drop_left, hpred]

/-- From a gap on, the next run begins behind it. -/
theorem findFirstNotOf_run (front rest : Str) (hgap : ∀ c ∈ gap, isDelim delims c) (hne : token ≠ [])
    (htoken : ∀ c ∈ token, ¬ isDelim delims c) :
    findFirstNotOf (front ++ (gap ++ (token ++ rest))) delims front.length =
      some (front ++ gap).length := by
  obtain ⟨c, token, rfl⟩ := List.exists_cons_of_ne_nil hne
  rw [findFirstNotOf_append, List.cons_append, findIdx?_append_cons, Option.map_some, List.length_append]
  · intro b hb
    simp [hgap b hb]
  · simpa using htoken c List.mem_cons_self

theorem findFirstOf_run (front rest : Str) (htoken : ∀ c ∈ token, ¬ isDelim delims c)
    (hc : isDelim delims c) :
    findFirstOf (front ++ (token ++ c :: rest)) delims front.length = some (front ++ token).length := by
  rw [findFirstOf_append, findIdx?_append_cons htoken hc, Option.map_some, List.length_append]

theorem findFirstOf_last (front : Str) (htoken : ∀ c ∈ token, ¬ isDelim delims c) :
    findFirstOf (front ++ token) delims front.length = none := by
  have hnone : token.findIdx? (isDelim delims) = none :=
    List.findIdx?_eq_none_iff.mpr fun c hc => Bool.eq_false_iff.mpr (htoken c hc)
  rw [findFirstOf_append, hnone, Option.map_none]

/-! ### The rounds -/

theorem tokenizeRound_done (front : Str) (tokens : List Str) (hgap : ∀ c ∈ gap, isDelim delims c) :
    tokenizeRound (front ++ gap) delims (tokens, front.length) = .inr (some tokens) := by
  have hnone : (gap.findIdx? fun c => !isDelim delims c) = none :=
    List.findIdx?_eq_none_iff.mpr fun c hc => by simp [hgap c hc]
  rw [tokenizeRound, findFirstNotOf_append, hnone, Option.map_none]

theorem tokenizeRound_last (front : Str) (tokens : List Str) (hgap : ∀ c ∈ gap, isDelim delims c)
    (hne : token ≠ []) (htoken : ∀ c ∈ token, ¬ isDelim delims c) :
    tokenizeRound (front ++ (gap ++ token)) delims (tokens, front.length) =
      .inr (some (tokens ++ [token])) := by
  have hstart := findFirstNotOf_run front [] hgap hne htoken
  have hend := findFirstOf_last (front ++ gap) htoken
  have hsub := substr_piece (front ++ gap) token []
  have hlen : (front ++ gap).length + token.length = (front ++ (gap ++ token)).length := by
    simp only [List.length_append]
    omega
  rw [List.append_nil] at hstart hsub
  rw [List.append_assoc] at hend
  rw [tokenizeRound, hstart]
  simp only [hend]
  rw [← hlen, ← List.append_assoc, hsub, Option.map_some]

theorem tokenizeRound_next (front rest : Str) (tokens : List Str) (hgap : ∀ c ∈ gap, isDelim delims c)
    (hne : token ≠ []) (htoken : ∀ c ∈ token, ¬ isDelim delims c) (hc : isDelim delims c) :
    tokenizeRound (front ++ (gap ++ (token ++ c :: rest))) delims (tokens, front.length) =
      .inl (tokens ++ [token], (front ++ gap ++ token).length) := by
  have hend := findFirstOf_run (front ++ gap) rest htoken hc
  have hsub := substr_piece (front ++ gap) token (c :: rest)
  have hlen : (front ++ gap).length + token.length = (front ++ gap ++ token).length :=
    List.length_append.symm
  rw [hlen] at hsub
  rw [tokenizeRound, findFirstNotOf_run front _ hgap hne htoken, ← List.append_assoc front gap]
  simp only [hend, hsub, attempt]

theorem iterate_tokenizeRound (h : Runs (isDelim delims) rest runs) :
    ∀ (front : Str) (tokens : List Str) (rounds : ℕ), runs.length < rounds →
      iterate (tokenizeRound (front ++ rest) delims) rounds (tokens, front.length) =
        some (some (tokens ++ runs)) := by
  induction h with
  | @done gap hgap =>
      intro front tokens rounds hrounds
      obtain ⟨rounds, rfl⟩ := Nat.exists_eq_succ_of_ne_zero (Nat.ne_of_gt hrounds)
      rw [iterate_done (tokenizeRound_done front tokens hgap), List.append_nil]
  | @last gap token hgap hne htoken =>
      intro front tokens rounds hrounds
      obtain ⟨rounds, rfl⟩ := Nat.exists_eq_succ_of_ne_zero (Nat.ne_zero_of_lt hrounds)
      exact iterate_done (tokenizeRound_last front tokens hgap hne htoken)
  | @next gap token rest c runs hgap hne htoken hc _ ih =>
      intro front tokens rounds hrounds
      obtain ⟨rounds, rfl⟩ := Nat.exists_eq_succ_of_ne_zero (Nat.ne_zero_of_lt hrounds)
      have hrest := ih (front ++ gap ++ token) (tokens ++ [token]) rounds (Nat.lt_of_succ_lt_succ hrounds)
      simp only [List.append_assoc, List.singleton_append] at hrest
      rw [iterate_next (tokenizeRound_next front rest tokens hgap hne htoken hc)]
      simpa only [List.append_assoc] using hrest

/-- `Tokenize` yields the runs of the string. -/
theorem tokenize_of_runs {str : Str} (h : Runs (isDelim delims) str runs) :
    tokenize str delims = some runs := by
  have hloop := iterate_tokenizeRound h [] [] (str.length + 1) (Nat.lt_succ_of_le h.length_le)
  simp only [List.nil_append, List.length_nil] at hloop
  rw [tokenize, hloop]
  rfl

/-- The tokens are not empty and have no delimiters, they are all of the string but its delimiters, and the
string is made of them with gaps of delimiters around, none of them empty between two tokens. -/
theorem tokenize_runs (str delims : Str) :
    ∃ tokens, tokenize str delims = some tokens ∧
      (∀ token ∈ tokens, token ≠ [] ∧ ∀ c ∈ token, c ∉ delims) ∧
      tokens.flatten = str.filter (fun c => decide (c ∉ delims)) ∧
      ∃ d0 gaps, gaps.length = tokens.length ∧ (∀ gap ∈ d0 :: gaps, ∀ c ∈ gap, c ∈ delims) ∧
        (∀ gap ∈ gaps.dropLast, gap ≠ []) ∧
        str = d0 ++ (List.zipWith (· ++ ·) tokens gaps).flatten := by
  obtain ⟨tokens, hruns⟩ := exists_runs (isDelim delims) str
  obtain ⟨d0, gaps, hlen, hgaps, hne, hstr⟩ := hruns.exists_gaps
  refine ⟨tokens, tokenize_of_runs hruns, ?_, ?_, d0, gaps, hlen, ?_, hne, hstr⟩
  · intro token htoken
    obtain ⟨htokenNe, hnot⟩ := hruns.of_mem token htoken
    exact ⟨htokenNe, fun c hc hdelim => hnot c hc (decide_eq_true hdelim)⟩
  · rw [hruns.flatten_eq]
    congr 1
    funext c
    exact decide_not.symm
  · exact fun gap hgap c hc => of_decide_eq_true (hgaps gap hgap c hc)

end EasyLib.Common.EasyString
