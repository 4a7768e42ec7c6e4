import EasyLib.Common.Strops
import EasyLib.Lib.Tokens

/-!
# Splitting, tokenizing and replacing

The three loops look for one separator after the other, each from the end of the one before. So they all
follow the derivation of `Cut` for what is left of the string: the part that is done with is `front`, and
the position in the loop is its length. They differ in what they make of the pieces, and `split` does not
look for a piece behind a separator at the end.
-/

namespace EasyLib.Common.EasyString

open CppString MachineInt Tokens Loop

variable {str token front rest piece : Str} {pieces res tokens : List Str} {rounds : ℕ}

theorem find_of_leftmost (h : Leftmost token piece rest) :
    find token (piece ++ token ++ rest) = some piece.length := by
  induction piece with
  | nil =>
      cases hstr : token ++ rest with
      | nil =>
          obtain ⟨rfl, rfl⟩ := List.append_eq_nil_iff.mp hstr
          exact if_pos rfl
      | cons c tail =>
          have hstarts : token.isPrefixOf (c :: tail) = true :=
            List.isPrefixOf_iff_prefix.mpr ⟨rest, hstr⟩
          simp [find, hstr, hstarts]
  | cons c piece ih =>
      obtain ⟨hhead, htail⟩ := leftmost_cons_iff.mp h
      have hstarts : ¬ token.isPrefixOf (c :: (piece ++ token ++ rest)) = true :=
        fun hstarts => hhead (List.isPrefixOf_iff_prefix.mp hstarts)
      rw [List.cons_append, List.cons_append, find, if_neg hstarts, ih htail]
      rfl

theorem find_of_absent (h : ¬ token <:+: str) : find token str = none := by
  induction str with
  | nil =>
      refine if_neg ?_
      rintro rfl
      exact h List.infix_rfl
  | cons c str ih =>
      have hstarts : ¬ token.isPrefixOf (c :: str) = true :=
        fun hstarts => h (List.isPrefixOf_iff_prefix.mp hstarts).isInfix
      rw [find, if_neg hstarts, ih fun hoccurs => h (List.infix_cons hoccurs)]
      rfl

theorem find_eq_some_iff {pos : ℕ} :
    find token str = some pos ↔
      ∃ piece rest, str = piece ++ token ++ rest ∧ Leftmost token piece rest ∧ piece.length = pos := by
  constructor
  · intro hfind
    by_cases hoccurs : token <:+: str
    · obtain ⟨piece, rest, rfl, hleft⟩ := exists_leftmost hoccurs
      rw [find_of_leftmost hleft] at hfind
      exact ⟨piece, rest, rfl, hleft, Option.some.inj hfind⟩
    · rw [find_of_absent hoccurs] at hfind
      cases hfind
  · rintro ⟨piece, rest, rfl, hleft, rfl⟩
    exact find_of_leftmost hleft

theorem findFrom_append (front rest token : Str) :
    findFrom (front ++ rest) token front.length = (find token rest).map (front.length + ·) := by
  rw [findFrom, if_pos (by simp), Int.toNat_natCast, List.drop_left]

theorem findFrom_zero : findFrom str token 0 = find token str := by
  simp [findFrom]

theorem findFrom_of_leftmost (h : Leftmost token piece rest) :
    findFrom (front ++ (piece ++ token ++ rest)) token front.length =
      some (front.length + piece.length) := by
  rw [findFrom_append, find_of_leftmost h]
  rfl

theorem findFrom_of_absent (h : ¬ token <:+: rest) :
    findFrom (front ++ rest) token front.length = none := by
  rw [findFrom_append, find_of_absent h]
  rfl

/-- The piece between two positions that `find` gives. -/
theorem substr_piece (front piece back : Str) :
    substr (front ++ (piece ++ back)) front.length ((front.length + piece.length : ℕ) - front.length) =
      some piece := by
  have hcount : ((front.length + piece.length : ℕ) - front.length : Int) = piece.length := by omega
  rw [hcount, substr_eq_middle]

/-! ### `SimpleTokenize` -/

theorem iterate_simpleTokenizeRound (hcut : Cut token rest pieces) :
    ∀ (front : Str) (tokens : List Str) (rounds : ℕ), pieces.length ≤ rounds →
      iterate (simpleTokenizeRound (front ++ rest) token) rounds (tokens, front.length) =
        some (some (tokens ++ pieces)) := by
  induction hcut with
  | last hnot =>
      intro front tokens rounds hrounds
      obtain ⟨rounds, rfl⟩ := Nat.exists_eq_succ_of_ne_zero (Nat.ne_of_gt hrounds)
      apply iterate_done
      rw [simpleTokenizeRound, findFrom_of_absent hnot]
      simp only [substr_eq_rest (by decide : (-1 : Int) < 0), Option.map_some]
  | @next piece rest pieces hpiece _ ih =>
      intro front tokens rounds hrounds
      obtain ⟨rounds, rfl⟩ := Nat.exists_eq_succ_of_ne_zero (Nat.ne_zero_of_lt hrounds)
      have hround : simpleTokenizeRound (front ++ (piece ++ token ++ rest)) token (tokens, front.length) =
          .inl (tokens ++ [piece], (front ++ piece ++ token).length) := by
        rw [simpleTokenizeRound, findFrom_of_leftmost hpiece]
        simp only [List.append_assoc, List.length_append]
        rw [substr_piece, attempt, Nat.add_assoc]
      have hrest := ih (front ++ piece ++ token) (tokens ++ [piece]) rounds
        (Nat.le_of_succ_le_succ hrounds)
      rw [iterate_next hround]
      simpa only [List.append_assoc, List.singleton_append] using hrest

theorem simpleTokenize_of_cut (hcut : Cut token str pieces) (htoken : token ≠ []) :
    simpleTokenize str token = some pieces := by
  have hloop := iterate_simpleTokenizeRound hcut [] [] (str.length + 1) (hcut.length_le htoken)
  exact congrArg Option.join hloop

/-- Joining the tokens gives the string back and no token contains the separator; and if the separator is
one character, joining tokens without it and tokenizing gives the tokens back. -/
theorem simpleTokenize_inverse (str : Str) {delims : Str} (hdelims : delims ≠ []) :
    (∃ tokens, simpleTokenize str delims = some tokens ∧ delims.intercalate tokens = str ∧
      ∀ token ∈ tokens, ¬ delims <:+: token) ∧
    ∀ (c : Char) (list : List Str), delims = [c] → list ≠ [] → (∀ token ∈ list, c ∉ token) →
      simpleTokenize (delims.intercalate list) delims = some list := by
  constructor
  · obtain ⟨tokens, hcut⟩ := exists_cut hdelims str
    exact ⟨tokens, simpleTokenize_of_cut hcut hdelims, hcut.intercalate_eq, hcut.not_contains hdelims⟩
  · rintro c list rfl hne hlist
    exact simpleTokenize_of_cut (cut_intercalate hne hlist) hdelims

theorem simpleTokenize_inverse_comma :
    (∃ tokens, simpleTokenize ['x', ',', ',', 'y'] [','] = some tokens ∧
      [','].intercalate tokens = ['x', ',', ',', 'y'] ∧ ∀ token ∈ tokens, ¬ [','] <:+: token) ∧
    simpleTokenize ([','].intercalate [['x'], [], ['y']]) [','] = some [['x'], [], ['y']] := by
  have hinverse := simpleTokenize_inverse ['x', ',', ',', 'y'] (List.cons_ne_nil ',' [])
  exact ⟨hinverse.1, hinverse.2 ',' _ rfl (List.cons_ne_nil _ _) (by simp)⟩

/-! ### `split` -/

/-- A separator that is not in `rest` is found behind it at best, unless a match can begin in `rest` and
end in `hidden`. -/
theorem length_le_of_find {hidden : Str} {pos : ℕ} (hnot : ¬ token <:+: rest)
    (hhidden : hidden ≠ [] → token.length = 1) (hfind : find token (rest ++ hidden) = some pos) :
    rest.length ≤ pos := by
  obtain ⟨piece, back, heq, -, rfl⟩ := find_eq_some_iff.mp hfind
  by_contra hlt
  have hne : hidden ≠ [] := by
    rintro rfl
    rw [List.append_nil] at heq
    exact hnot ⟨piece, back, heq.symm⟩
  have hstarts : piece ++ token <+: rest := by
    refine List.prefix_of_prefix_length_le ⟨back, heq.symm⟩ (List.prefix_append rest hidden) ?_
    rw [List.length_append, hhidden hne]
    omega
  exact hnot ((List.suffix_append piece token).isInfix.trans hstarts.isInfix)

theorem splitRound_last {size : Int} {i : Int} (hi : i < size)
    (hfind : ∀ pos ∈ findFrom str token i, size ≤ (pos : Int)) :
    splitRound str token size (res, i) = .inr ((substr str i (size - i)).map fun sub => res ++ [sub]) := by
  have hnone : ((findFrom str token i).filter fun pos : ℕ => decide ((pos : Int) < size)) = none := by
    refine Option.filter_eq_none_iff.mpr fun pos hpos => ?_
    simpa using hfind pos hpos
  rw [splitRound, if_pos hi, hnone]

theorem splitRound_next {size : Int} {i : Int} {pos : ℕ} {sub : Str} (hi : i < size)
    (hfind : findFrom str token i = some pos) (hpos : (pos : Int) < size)
    (hsub : substr str i (pos - i) = some sub) :
    splitRound str token size (res, i) = .inl (res ++ [sub], toInt32 (pos + token.length)) := by
  have hsome : ((findFrom str token i).filter fun pos : ℕ => decide ((pos : Int) < size)) = some pos :=
    Option.filter_eq_some_iff.mpr ⟨hfind, decide_eq_true hpos⟩
  rw [splitRound, if_pos hi, hsome]
  simp only [hsub, attempt, toInt32_succ, sub_add_cancel]

/-- The loop of `split` over `front ++ rest`, with `hidden` behind the position where it stops. A match
that begins in front of that position must end there as well. -/
theorem iterate_splitRound (htoken : token ≠ []) {hidden : Str} (hhidden : hidden ≠ [] → token.length = 1)
    (hcut : Cut token rest pieces) :
    ∀ (front : Str) (res : List Str) (rounds : ℕ), rest.length < rounds →
      front.length + rest.length < 2 ^ 31 →
      iterate (splitRound (front ++ (rest ++ hidden)) token (front.length + rest.length : ℕ)) rounds
        (res, front.length) = some (some (res ++ trimLast pieces)) := by
  induction hcut with
  | @last rest hnot =>
      intro front res rounds hrounds hlen
      obtain ⟨rounds, rfl⟩ := Nat.exists_eq_succ_of_ne_zero (Nat.ne_zero_of_lt hrounds)
      apply iterate_done
      by_cases hnil : rest = []
      · subst hnil
        simp [splitRound, trimLast]
      · have hpos := List.length_pos_iff.mpr hnil
        have hcount : ((front.length + rest.length : ℕ) - front.length : Int) = rest.length := by omega
        rw [splitRound_last (by omega), hcount, substr_eq_middle, trimLast_singleton hnil]
        · rfl
        · intro pos hpos
          rw [findFrom_append] at hpos
          obtain ⟨offset, hoffset, rfl⟩ := Option.map_eq_some_iff.mp hpos
          have hle := length_le_of_find hnot hhidden hoffset
          omega
  | @next piece rest pieces hpiece hrest ih =>
      intro front res rounds hrounds hlen
      have hpos := List.length_pos_iff.mpr htoken
      simp only [List.length_append] at hrounds hlen ⊢
      obtain ⟨rounds, rfl⟩ := Nat.exists_eq_succ_of_ne_zero (Nat.ne_zero_of_lt hrounds)
      have hloop := ih (front ++ piece ++ token) (res ++ [piece]) rounds (by omega)
        (by simp only [List.length_append]; omega)
      have hfind : findFrom (front ++ (piece ++ token ++ (rest ++ hidden))) token front.length =
          some (front.length + piece.length) := findFrom_of_leftmost (hpiece.append hidden)
      have hstep : toInt32 ((front.length + piece.length : ℕ) + token.length) =
          (front ++ piece ++ token).length := by
        rw [toInt32_of_range (by omega) (by omega)]
        simp only [List.length_append, Nat.cast_add]
      simp only [List.append_assoc, List.length_append, Nat.add_assoc] at hfind hstep hloop ⊢
      rw [iterate_next (splitRound_next (by omega) hfind (by omega) (substr_piece front piece _)), hstep,
        trimLast_cons hrest.ne_nil, hloop]
      rfl

theorem splitInto_of_cut (htoken : token ≠ []) (hlen : str.length < 2 ^ 31)
    (hcut : Cut token str pieces) (res : List Str) :
    splitInto str token res = some (res ++ trimLast pieces) := by
  have hhidden : ([] : Str) ≠ [] → token.length = 1 := fun hne => absurd rfl hne
  have hloop := iterate_splitRound htoken hhidden hcut [] res (str.length + 1) (Nat.lt_succ_self _)
    (by simpa using hlen)
  rw [List.append_nil, List.nil_append, List.length_nil, Nat.zero_add] at hloop
  rw [splitInto, toInt32_of_lt hlen]
  exact congrArg Option.join hloop

/-- What is seen of a string by code that keeps its length in an `int`. -/
def visible (str : Str) : Str := str.take (toInt32 str.length).toNat

theorem length_visible : (visible str).length = (toInt32 str.length).toNat := by
  have hle := toInt32_le str.length
  rw [visible, List.length_take]
  omega

theorem visible_of_lt (hlen : str.length < 2 ^ 31) : visible str = str := by
  rw [visible, toInt32_of_lt hlen, Int.toNat_natCast, List.take_length]

theorem length_visible_lt : (visible str).length < 2 ^ 31 := by
  have hlt := toInt32_lt str.length
  rw [length_visible]
  omega

/-- With a separator of one character `split` cuts what it sees of a string of any length. -/
theorem splitInto_of_cut_visible {c : Char} (hcut : Cut [c] (visible str) pieces) (res : List Str) :
    splitInto str [c] res = some (res ++ trimLast pieces) := by
  by_cases hneg : toInt32 str.length ≤ 0
  · have hnil : visible str = [] := by
      rw [visible, Int.toNat_of_nonpos hneg, List.take_zero]
    have hdone : splitRound str [c] (toInt32 str.length) (res, 0) = .inr (some res) :=
      if_neg (not_lt.mpr hneg)
    rw [splitInto, iterate_done hdone, hcut.trimLast_eq_nil (List.cons_ne_nil c []) hnil, List.append_nil]
    rfl
  · have hsize : toInt32 str.length = (([] : Str).length + (visible str).length : ℕ) := by
      rw [length_visible, List.length_nil]
      omega
    have hhidden : str.drop (toInt32 str.length).toNat ≠ [] → [c].length = 1 := fun _ => rfl
    have hloop := iterate_splitRound (List.cons_ne_nil c []) hhidden hcut [] res (str.length + 1)
      (Nat.lt_succ_of_le (List.length_take_le' _ _)) (by simpa using length_visible_lt)
    rw [splitInto, hsize]
    rw [visible, List.take_append_drop] at hloop
    exact congrArg Option.join hloop

/-- `split` appends what `SimpleTokenize` produces, without the last token if that is empty. -/
theorem splitInto_eq_tokens {str token : Str} (hlen : str.length < 2 ^ 31) (htoken : token ≠ [])
    (res : List Str) :
    ∃ tokens, simpleTokenize str token = some tokens ∧
      splitInto str token res = some (res ++ trimLast tokens) := by
  obtain ⟨tokens, hcut⟩ := exists_cut htoken str
  exact ⟨tokens, simpleTokenize_of_cut hcut htoken, splitInto_of_cut htoken hlen hcut res⟩

theorem splitInto_eq_tokens_trailing :
    ∃ tokens, simpleTokenize ['a', ':', ':'] [':'] = some tokens ∧
      splitInto ['a', ':', ':'] [':'] [['z']] = some ([['z']] ++ trimLast tokens) :=
  splitInto_eq_tokens (by decide) (List.cons_ne_nil _ _) [['z']]

/-! ### `ReplaceAll` -/

theorem replaceRound_next (front strTemp : Str) (hasReplaced : Bool) (strReplaced : Str)
    (hpiece : Leftmost token piece rest) :
    replaceRound (front ++ (piece ++ token ++ rest)) token strReplaced
        (strTemp, front.length, hasReplaced,
          findFrom (front ++ (piece ++ token ++ rest)) token front.length) =
      .inl (strTemp ++ (piece ++ strReplaced), (front ++ piece ++ token).length, true,
        findFrom (front ++ (piece ++ token ++ rest)) token (front ++ piece ++ token).length) := by
  rw [findFrom_of_leftmost hpiece, replaceRound]
  simp only [List.append_assoc, List.length_append]
  rw [substr_piece, attempt, Nat.add_assoc]

/-- The loop of `ReplaceAll` once something has been replaced. -/
theorem iterate_replaceRound (strReplaced : Str) (hcut : Cut token rest pieces) :
    ∀ (front strTemp : Str) (rounds : ℕ), pieces.length ≤ rounds →
      ∃ strTemp' front' last, front ++ rest = front' ++ last ∧
        iterate (replaceRound (front ++ rest) token strReplaced) rounds
          (strTemp, front.length, true, findFrom (front ++ rest) token front.length) =
            some (some (strTemp', front'.length, true)) ∧
        strTemp' ++ last = strTemp ++ strReplaced.intercalate pieces := by
  induction hcut with
  | @last rest hnot =>
      intro front strTemp rounds hrounds
      obtain ⟨rounds, rfl⟩ := Nat.exists_eq_succ_of_ne_zero (Nat.ne_of_gt hrounds)
      refine ⟨strTemp, front, rest, rfl, ?_, by rw [List.intercalate_singleton]⟩
      rw [findFrom_of_absent hnot]
      exact iterate_done rfl
  | @next piece rest pieces hpiece hrest ih =>
      intro front strTemp rounds hrounds
      obtain ⟨rounds, rfl⟩ := Nat.exists_eq_succ_of_ne_zero (Nat.ne_zero_of_lt hrounds)
      obtain ⟨strTemp', front', last, heq, hloop, hjoin⟩ :=
        ih (front ++ piece ++ token) (strTemp ++ (piece ++ strReplaced)) rounds
          (Nat.le_of_succ_le_succ hrounds)
      have hstr : front ++ piece ++ token ++ rest = front ++ (piece ++ token ++ rest) := by
        simp only [List.append_assoc]
      rw [hstr] at heq hloop
      refine ⟨strTemp', front', last, heq, ?_, ?_⟩
      · rw [iterate_next (replaceRound_next front strTemp true strReplaced hpiece), hloop]
      · rw [hjoin, List.intercalate_cons_of_ne_nil hrest.ne_nil]
        simp only [List.append_assoc]

theorem replaceAll_of_cut (htoken : token ≠ []) (hcut : Cut token str pieces) (strReplaced : Str) :
    replaceAll str token strReplaced = some (strReplaced.intercalate pieces) := by
  have hlen := hcut.length_le htoken
  rw [replaceAll]
  cases hcut with
  | last hnot =>
      rw [findFrom_zero, find_of_absent hnot, List.intercalate_singleton]
      rfl
  | @next piece rest pieces hpiece hrest =>
      -- The first round sets the flag, and the rounds after it are those of the lemma above.
      obtain ⟨strTemp, front, last, heq, hloop, hjoin⟩ :=
        iterate_replaceRound strReplaced hrest (piece ++ token) (piece ++ strReplaced)
          ((piece ++ token ++ rest).length + 1) (Nat.le_of_lt hlen)
      have hfirst := replaceRound_next [] [] false strReplaced hpiece
      simp only [List.nil_append, List.length_nil, Nat.cast_zero] at hfirst
      rw [iterate_next hfirst, hloop]
      simp only [Option.join_some, Option.bind_eq_bind, Option.bind_some, if_true]
      rw [heq, substr_eq_rest (by decide), Option.map_some, hjoin,
        List.intercalate_cons_of_ne_nil hrest.ne_nil, List.append_assoc]

/-- `ReplaceAll` puts `strReplaced` between the tokens, whatever it contains. -/
theorem replaceAll_eq_join (hne : token ≠ []) (strReplaced : Str) :
    ∃ tokens, simpleTokenize str token = some tokens ∧
      replaceAll str token strReplaced = some (strReplaced.intercalate tokens) := by
  obtain ⟨tokens, hcut⟩ := exists_cut hne str
  exact ⟨tokens, simpleTokenize_of_cut hcut hne, replaceAll_of_cut hne hcut strReplaced⟩

/-- The text put in contains the text replaced, and is not looked at again. -/
theorem replaceAll_eq_join_growing :
    ∃ tokens, simpleTokenize ['x', 'a', 'y'] ['a'] = some tokens ∧
      replaceAll ['x', 'a', 'y'] ['a'] ['a', 'a'] = some (['a', 'a'].intercalate tokens) :=
  replaceAll_eq_join (List.cons_ne_nil _ _) ['a', 'a']

end EasyLib.Common.EasyString
