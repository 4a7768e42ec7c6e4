import EasyLib.Proof.Tokenizing

/-!
# Where the scans end

An empty pattern is found at every position and moves none of the loops of `Strops.cpp` on. Any other one
moves the two loops on that keep their position in a `size_t`. `split` narrows the position behind a match
to an `int`, and where the string is longer than an `int` can say, this can lead back in front of the match:
the same match is found again and again. The first match decides it, as no match lies in front of it.
-/

namespace EasyLib.Common.EasyString

open CppString MachineInt Tokens Loop

variable {str token strReplaced : Str} {res : List Str} {size i : Int} {pos : ℕ}

/-! ### `SimpleTokenize` and `ReplaceAll` -/

theorem find_nil (str : Str) : find [] str = some 0 := by
  cases str <;> rfl

theorem findFrom_nil (str : Str) : findFrom str [] 0 = some 0 := by
  rw [findFrom_zero, find_nil]

theorem substr_zero (str : Str) : substr str 0 0 = some [] := by
  rw [substr, if_pos ⟨le_rfl, Int.natCast_nonneg _⟩, if_neg (by decide), Int.toNat_zero, List.take_zero]

theorem simpleTokenizeRound_halts_iff :
    Halts (simpleTokenizeRound str token) ([], 0) ↔ token ≠ [] := by
  constructor
  · rintro hhalts rfl
    refine not_halts_of_invariant (fun state => state.2 = 0) ?_ rfl hhalts
    rintro ⟨tokens, p0⟩ (rfl : p0 = 0)
    refine ⟨(tokens ++ [[]], 0), ?_, rfl⟩
    rw [simpleTokenizeRound, Nat.cast_zero, findFrom_nil]
    simp only [Nat.cast_zero, sub_self, substr_zero, attempt, List.length_nil, Nat.add_zero]
  · intro hne
    obtain ⟨pieces, hcut⟩ := exists_cut hne str
    exact ⟨_, _, iterate_simpleTokenizeRound hcut [] [] _ le_rfl⟩

theorem replaceRound_halts_iff :
    Halts (replaceRound str token strReplaced) ([], 0, false, findFrom str token 0) ↔ token ≠ [] := by
  constructor
  · rintro hhalts rfl
    refine not_halts_of_invariant (fun state => state.2.1 = 0 ∧ state.2.2.2 = some 0) ?_
      ⟨rfl, findFrom_nil str⟩ hhalts
    rintro ⟨strTemp, tpos, hasReplaced, found⟩ ⟨(rfl : tpos = 0), (rfl : found = some 0)⟩
    refine ⟨(strTemp ++ ([] ++ strReplaced), 0, true, some 0), ?_, rfl, rfl⟩
    simp only [replaceRound, Nat.cast_zero, sub_self, substr_zero, attempt, List.length_nil, Nat.add_zero,
      findFrom_nil]
  · intro hne
    obtain ⟨pieces, hcut⟩ := exists_cut hne str
    obtain ⟨left, hloop, -⟩ := Option.bind_eq_some_iff.mp (replaceAll_of_cut hne hcut strReplaced)
    exact ⟨_, _, Option.join_eq_some_iff.mp hloop⟩

/-! ### `split` -/

/-- The position behind the first match that `split` gets to, as an `int`, does not lie between the
beginning of the string and that of the match. -/
def Advances (str token : Str) : Prop :=
  ∀ pos ∈ find token str, (pos : Int) < toInt32 str.length →
    toInt32 (pos + token.length) < 0 ∨ (pos : Int) < toInt32 (pos + token.length)

instance (str token : Str) : Decidable (Advances str token) :=
  inferInstanceAs (Decidable (∀ pos ∈ find token str, _))

theorem range_of_findFrom (h : findFrom str token i = some pos) : 0 ≤ i ∧ i ≤ str.length ∧ i ≤ pos := by
  rw [findFrom] at h
  split_ifs at h with hrange
  obtain ⟨offset, -, rfl⟩ := Option.map_eq_some_iff.mp h
  exact ⟨hrange.1, hrange.2, by omega⟩

/-- From the front up to the first match it is the first match. -/
theorem findFrom_of_le (h : find token str = some pos) (hnonneg : 0 ≤ i) (hle : i ≤ pos) :
    findFrom str token i = some pos := by
  obtain ⟨piece, rest, rfl, hleft, rfl⟩ := find_eq_some_iff.mp h
  obtain ⟨front, back, rfl, hlen⟩ : ∃ front back, piece = front ++ back ∧ (front.length : Int) = i :=
    ⟨piece.take i.toNat, piece.drop i.toNat, (List.take_append_drop _ _).symm, by
      rw [List.length_take]
      omega⟩
  rw [← hlen, List.append_assoc, List.append_assoc, ← List.append_assoc back, findFrom_append,
    find_of_leftmost hleft.of_append, Option.map_some, List.length_append]

theorem exists_splitRound_next (res : List Str) (hi : i < size) (hfind : findFrom str token i = some pos)
    (hpos : (pos : Int) < size) :
    ∃ sub, splitRound str token size (res, i) = .inl (res ++ [sub], toInt32 (pos + token.length)) := by
  obtain ⟨hnonneg, hlen, -⟩ := range_of_findFrom hfind
  have hsub : ∃ sub, substr str i (pos - i) = some sub := by
    rw [substr, if_pos ⟨hnonneg, hlen⟩]
    exact ⟨_, rfl⟩
  obtain ⟨sub, hsub⟩ := hsub
  exact ⟨sub, splitRound_next hi hfind hpos hsub⟩

/-- A round that does not leave the loop has found a match between the position and the size. -/
theorem splitRound_cases {next : List Str × Int}
    (h : splitRound str token size (res, i) = .inl next) :
    ∃ pos : ℕ, findFrom str token i = some pos ∧ i < size ∧ (pos : Int) < size ∧
      next.2 = toInt32 (pos + token.length) := by
  have hround := h
  rw [splitRound] at h
  split_ifs at h with hi
  cases hfind : (findFrom str token i).filter fun pos : ℕ => decide ((pos : Int) < size) with
  | none =>
      rw [hfind] at h
      cases h
  | some pos =>
      obtain ⟨hfound, hlt⟩ := Option.filter_eq_some_iff.mp hfind
      obtain ⟨sub, hnext⟩ := exists_splitRound_next res hi hfound (of_decide_eq_true hlt)
      rw [hnext, Sum.inl.injEq] at hround
      exact ⟨pos, hfound, hi, of_decide_eq_true hlt, by rw [← hround]⟩

/-- The position that is found first is found from every position the loop gets to. -/
theorem splitRound_not_halts (hfind : find token str = some pos) (hpos : (pos : Int) < size)
    (hnonneg : 0 ≤ toInt32 (pos + token.length)) (hle : toInt32 (pos + token.length) ≤ pos) :
    ¬ Halts (splitRound str token size) (res, 0) := by
  refine not_halts_of_invariant (fun state => 0 ≤ state.2 ∧ state.2 ≤ pos) ?_
    ⟨le_rfl, Int.natCast_nonneg pos⟩
  rintro ⟨res, i⟩ ⟨hi, hipos⟩
  obtain ⟨sub, hround⟩ := exists_splitRound_next res (by omega)
    (findFrom_of_le hfind hi hipos) hpos
  exact ⟨_, hround, hnonneg, hle⟩

/-- A step that leads on from one position leads on from every other one, or below 0. -/
theorem toInt32_step_advances {count pos pos' : Int} (hpos : 0 ≤ pos) (hpos' : 0 ≤ pos')
    (hlt' : pos' < 2 ^ 31) (h : pos < toInt32 (pos + count)) :
    toInt32 (pos' + count) < 0 ∨ pos' < toInt32 (pos' + count) := by
  have hmod := toInt32_emod (pos + count)
  have hmod' := toInt32_emod (pos' + count)
  have hlt := toInt32_lt (pos + count)
  omega

theorem splitRound_halts_of_neg (hneg : i < 0) : Halts (splitRound str token size) (res, i) := by
  cases hround : splitRound str token size (res, i) with
  | inl next =>
      obtain ⟨pos, hfind, -⟩ := splitRound_cases hround
      exact absurd (range_of_findFrom hfind).1 (not_le.mpr hneg)
  | inr result => exact halts_of_done hround

theorem splitRound_halts_of_advances
    (hall : ∀ pos : ℕ, (pos : Int) < size →
      toInt32 (pos + token.length) < 0 ∨ (pos : Int) < toInt32 (pos + token.length)) :
    Halts (splitRound str token size) (res, i) := by
  -- Below 0 the next round is the last one; elsewhere the distance to the end gets smaller.
  refine halts_of_measure (fun _ => True)
    (fun state => if state.2 < 0 then 0 else (size - state.2).toNat) ?_ trivial
  rintro ⟨res, i⟩ next - hround
  obtain ⟨pos, hfind, hi, hpos, hnext⟩ := splitRound_cases hround
  obtain ⟨hnonneg, -, hle⟩ := range_of_findFrom hfind
  refine ⟨trivial, ?_⟩
  simp only [if_neg (not_lt.mpr hnonneg), hnext]
  rcases hall pos hpos with hneg | hlt
  · rw [if_pos hneg]
    omega
  · rw [if_neg (by omega)]
    omega

theorem splitRound_halts_iff :
    Halts (splitRound str token (toInt32 str.length)) (res, 0) ↔ Advances str token := by
  constructor
  · intro hhalts pos hfind hpos
    by_contra hback
    push Not at hback
    exact splitRound_not_halts hfind hpos hback.1 hback.2 hhalts
  · intro hadvances
    cases hround : splitRound str token (toInt32 str.length) (res, 0) with
    | inr result => exact halts_of_done hround
    | inl next =>
        obtain ⟨pos, hfind, hi, hpos, hnext⟩ := splitRound_cases hround
        rw [findFrom_zero] at hfind
        rcases hadvances pos hfind hpos with hneg | hlt
        · rw [halts_next_iff hround]
          exact splitRound_halts_of_neg (hnext ▸ hneg)
        · apply splitRound_halts_of_advances
          intro pos' hpos'
          exact toInt32_step_advances (Int.natCast_nonneg _) (Int.natCast_nonneg _)
            (hpos'.trans (toInt32_lt _)) hlt

/-- In a string whose length is an `int` every pattern that is not empty leads on. -/
theorem advances_of_length (hlen : str.length < 2 ^ 31) (hne : token ≠ []) : Advances str token := by
  intro pos hfind _
  obtain ⟨piece, rest, rfl, -, rfl⟩ := find_eq_some_iff.mp hfind
  have hpos := List.length_pos_iff.mpr hne
  simp only [List.length_append] at hlen
  right
  rw [toInt32_of_range (by omega) (by omega)]
  omega

/-! ### All three -/

/-- The loops of `split`, `SimpleTokenize` and `ReplaceAll` on a string and a pattern. -/
structure Terminates (str token : Str) : Prop where
  split : ∀ res, Halts (splitRound str token (toInt32 str.length)) (res, 0)
  simpleTokenize : Halts (simpleTokenizeRound str token) ([], 0)
  replaceAll : ∀ strReplaced,
    Halts (replaceRound str token strReplaced) ([], 0, false, findFrom str token 0)

/-- The loops end exactly for a pattern that is not empty and does not lead `split` back. In a string whose
length is an `int` no pattern does. -/
theorem terminates_iff (str token : Str) :
    (Terminates str token ↔ token ≠ [] ∧ Advances str token) ∧
    (str.length < 2 ^ 31 → (Terminates str token ↔ token ≠ [])) := by
  have hiff : Terminates str token ↔ token ≠ [] ∧ Advances str token := by
    constructor
    · intro h
      exact ⟨simpleTokenizeRound_halts_iff.mp h.simpleTokenize, splitRound_halts_iff.mp (h.split [])⟩
    · rintro ⟨hne, hadvances⟩
      exact ⟨fun res => splitRound_halts_iff.mpr hadvances, simpleTokenizeRound_halts_iff.mpr hne,
        fun strReplaced => replaceRound_halts_iff.mpr hne⟩
  refine ⟨hiff, fun hlen => hiff.trans ?_⟩
  exact and_iff_left_of_imp (advances_of_length hlen)

/-- A pattern of `2 ^ 32` characters at the front of a string with one more. -/
theorem not_advances_of_length {c : Char} (hlen : token.length = 2 ^ 32) :
    ¬ Advances (token ++ [c]) token := by
  intro hadvances
  have hfind : find token (token ++ [c]) = some 0 :=
    find_of_leftmost (leftmost_nil token [c])
  have hsize : toInt32 (token ++ [c]).length = 1 := by
    rw [List.length_append, hlen, List.length_singleton]
    decide
  have hback : toInt32 ((0 : ℕ) + token.length) = 0 := by
    rw [hlen]
    decide
  have hcases := hadvances 0 hfind (by rw [hsize]; decide)
  rw [hback] at hcases
  omega

/-- None of the loops ends where the pattern is empty, and `split` comes back to the front of a string that
begins with a pattern of `2 ^ 32` characters. -/
theorem not_halts_empty :
    ¬ Halts (splitRound ['a'] [] (toInt32 ['a'].length)) ([], 0) ∧
    ¬ Halts (simpleTokenizeRound ['a'] []) ([], 0) ∧
    ¬ Halts (replaceRound ['a'] [] ['b']) ([], 0, false, findFrom ['a'] [] 0) ∧
    ∃ str token, token.length = 2 ^ 32 ∧ ¬ Halts (splitRound str token (toInt32 str.length)) ([], 0) := by
  refine ⟨?_, ?_, ?_, ?_⟩
  · rw [splitRound_halts_iff]
    decide
  · rw [simpleTokenizeRound_halts_iff, not_not]
  · rw [replaceRound_halts_iff, not_not]
  · refine ⟨List.replicate (2 ^ 32) 'a' ++ ['b'], List.replicate (2 ^ 32) 'a', List.length_replicate, ?_⟩
    rw [splitRound_halts_iff]
    exact not_advances_of_length List.length_replicate

end EasyLib.Common.EasyString
