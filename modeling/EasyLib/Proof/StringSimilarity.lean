import EasyLib.Proof.Tokenizing
import Mathlib.Algebra.Order.Field.Basic
import Mathlib.Data.Multiset.UnionInter
import Mathlib.Data.Rat.Cast.Order

/-!
# Similarity of two strings

`CalStringSim` compares a string that is shorter than `n` with the other one as a whole, and otherwise counts
the n-grams the two have in common. The map of n-grams stands for a multiset, from which each n-gram of the
other string takes away one, so what is counted is the size of an intersection and does not depend on the
order. The numbers are `int`s: the divisor for two strings of some `2 ^ 30` characters does not fit, and of
longer strings the code sees as much as their lengths as `int`s say.
-/

namespace EasyLib.Common.EasyString

open MachineInt Tokens

variable {s1 s2 : Str} {n : Int}

/-! ### The map of n-grams -/

/-- The map holds how often each key occurs. -/
def Represents (imap : NgramMap) (grams : Multiset Str) : Prop :=
  ∀ key, imap key = if grams.count key = 0 then none else some (grams.count key)

theorem represents_empty : Represents (fun _ => none) 0 := fun key => by simp

theorem Represents.count {imap : NgramMap} {grams : Multiset Str} (h : Represents imap grams) (key : Str) :
    Represents (imap.count key) (key ::ₘ grams) := by
  intro other
  have hvalue : (imap key).getD 0 = grams.count key := by
    rw [h key]
    split_ifs with hzero
    · exact hzero.symm
    · rfl
  by_cases heq : other = key
  · subst heq
    rw [NgramMap.count, Function.update_self, hvalue, Multiset.count_cons_self, if_neg (Nat.succ_ne_zero _)]
  · rw [NgramMap.count, Function.update_of_ne heq, Multiset.count_cons_of_ne heq, h other]

theorem Represents.foldl_count {imap : NgramMap} {grams : Multiset Str} (h : Represents imap grams)
    (keys : List Str) : Represents (keys.foldl NgramMap.count imap) (keys + grams) := by
  induction keys generalizing imap grams with
  | nil => simpa using h
  | cons key keys ih =>
      have hrest := ih (h.count key)
      rwa [Multiset.add_cons, ← Multiset.cons_add, Multiset.cons_coe] at hrest

/-- A key that is found is taken away once. -/
theorem Represents.erase {imap : NgramMap} {grams : Multiset Str} (h : Represents imap grams) {key : Str}
    (hmem : key ∈ grams) (common : ℕ) :
    ∃ imap', matchNgram (common, imap) key = (common + 1, imap') ∧ Represents imap' (grams.erase key) := by
  have hpos : grams.count key ≠ 0 := Multiset.count_ne_zero.mpr hmem
  have hkey : imap key = some (grams.count key) := by rw [h key, if_neg hpos]
  refine ⟨_, by rw [matchNgram, hkey], fun other => ?_⟩
  by_cases heq : other = key
  · subst heq
    rw [Function.update_self, Multiset.count_erase_self]
  · rw [Function.update_of_ne heq, Multiset.count_erase_of_ne heq, h other]

theorem Represents.foldl_match {imap : NgramMap} {grams : Multiset Str} (h : Represents imap grams)
    (keys : List Str) (common : ℕ) :
    (keys.foldl matchNgram (common, imap)).1 = common + ((keys : Multiset Str) ∩ grams).card := by
  induction keys generalizing imap grams common with
  | nil => simp
  | cons key keys ih =>
      rw [List.foldl_cons, ← Multiset.cons_coe]
      by_cases hmem : key ∈ grams
      · obtain ⟨imap', hmatch, h'⟩ := h.erase hmem common
        rw [hmatch, ih h', Multiset.cons_inter_of_pos _ hmem, Multiset.card_cons]
        omega
      · have hkey : imap key = none := by rw [h key, if_pos (Multiset.count_eq_zero.mpr hmem)]
        have hmatch : matchNgram (common, imap) key = (common, imap) := by rw [matchNgram, hkey]
        rw [hmatch, ih h, Multiset.cons_inter_of_neg _ hmem]

/-- `common` is the size of the intersection. -/
theorem ngramCommon_eq (s1 s2 : Str) (n : Int) :
    ngramCommon s1 s2 n = ((ngrams s1 n : Multiset Str) ∩ ngrams s2 n).card := by
  have hmap := represents_empty.foldl_count (ngrams s2 n)
  rw [Multiset.add_zero] at hmap
  rw [ngramCommon, hmap.foldl_match, Nat.zero_add]

/-! ### What a similarity is -/

/-- The parts of `s` that have `n` characters. -/
def substrings (s : Str) (n : ℕ) : List Str := (List.range (s.length + 1 - n)).map fun i => (s.drop i).take n

/-- How many of these parts two strings have in common. -/
def shared (s1 s2 : Str) (n : ℕ) : ℕ := ((substrings s1 n : Multiset Str) ∩ substrings s2 n).card

/-- The quotient that `CalStringSim` returns. -/
def simValue (s1 s2 : Str) (n : Int) : Option ℚ :=
  (calStringSim (some s1) (some s2) n).map fun quotient => (quotient.1 : ℚ) / quotient.2

/-- The branch that counts n-grams is taken where neither length is below `n` as an `int`. -/
structure Similarity (s1 s2 : Str) (n : Int) : Prop where
  divisor : ∃ dividend divisor, calStringSim (some s1) (some s2) n = some (dividend, divisor) ∧ 0 < divisor
  common : n ≤ toInt32 s1.length → n ≤ toInt32 s2.length → ngramCommon s1 s2 n = shared s1 s2 n.toNat
  symm : simValue s1 s2 n = simValue s2 s1 n
  range : ∃ value, simValue s1 s2 n = some value ∧ 0 ≤ value ∧ value ≤ 1
  self : s1 = s2 → simValue s1 s2 n = some 1

/-- Where n-grams are counted, their number is an `int`, and those that are common to the strings are so as
far as the lengths let the code see them. Where they are not, the difference of the lengths is an `int`, and
strings of different lengths that are the same as `int`s do not occur in each other. -/
def Comparable (s1 s2 : Str) (n : Int) : Prop :=
  if n ≤ toInt32 s1.length ∧ n ≤ toInt32 s2.length then
    toInt32 s1.length + toInt32 s2.length - 2 * n + 2 < 2 ^ 31 ∧
      shared (visible s1) (visible s2) n.toNat = shared s1 s2 n.toNat
  else
    |toInt32 s1.length - toInt32 s2.length| + 1 < 2 ^ 31 ∧
      (toInt32 s1.length = toInt32 s2.length →
        s1.length = s2.length ∨ ¬ s1 <:+: s2 ∧ ¬ s2 <:+: s1)

instance : Decidable (Comparable s1 s2 n) :=
  inferInstanceAs (Decidable (if n ≤ toInt32 s1.length ∧ n ≤ toInt32 s2.length then _ else _))

theorem comparable_comm : Comparable s1 s2 n ↔ Comparable s2 s1 n := by
  have hshared : ∀ (left right : Str) (n : ℕ), shared left right n = shared right left n :=
    fun left right n => by rw [shared, shared, Multiset.inter_comm]
  simp only [Comparable, and_comm (a := n ≤ toInt32 s1.length), abs_sub_comm (toInt32 s1.length),
    eq_comm (a := toInt32 s1.length), eq_comm (a := s1.length), and_comm (a := ¬ s1 <:+: s2),
    add_comm (toInt32 s1.length), hshared (visible s1), hshared s1]

theorem calStringSim_some (n : Int) (h1 : s1 ≠ []) (h2 : s2 ≠ []) :
    calStringSim (some s1) (some s2) n = nonemptySim s1 s2 n := by
  obtain ⟨c1, rest1, rfl⟩ := List.exists_cons_of_ne_nil h1
  obtain ⟨c2, rest2, rfl⟩ := List.exists_cons_of_ne_nil h2
  rfl

theorem simValue_of_sim {quotient : Int × Int} (h1 : s1 ≠ []) (h2 : s2 ≠ [])
    (hsim : nonemptySim s1 s2 n = some quotient) :
    simValue s1 s2 n = some ((quotient.1 : ℚ) / quotient.2) := by
  rw [simValue, calStringSim_some n h1 h2, hsim, Option.map_some]

theorem Similarity.divisor_pos {quotient : Int × Int} (h : Similarity s1 s2 n) (h1 : s1 ≠ [])
    (h2 : s2 ≠ []) (hsim : nonemptySim s1 s2 n = some quotient) : 0 < quotient.2 := by
  obtain ⟨dividend, divisor, hcall, hpos⟩ := h.divisor
  rw [calStringSim_some n h1 h2, hsim, Option.some.injEq] at hcall
  rwa [hcall]

theorem similarity_of_bounds {quotient quotient' : Int × Int} (h1 : s1 ≠ []) (h2 : s2 ≠ [])
    (hsim : nonemptySim s1 s2 n = some quotient) (hsim' : nonemptySim s2 s1 n = some quotient')
    (hsymm : quotient = quotient') (hpos : 0 < quotient.2) (hnonneg : 0 ≤ quotient.1)
    (hle : quotient.1 ≤ quotient.2)
    (hcommon : n ≤ toInt32 s1.length → n ≤ toInt32 s2.length →
      ngramCommon s1 s2 n = shared s1 s2 n.toNat)
    (hself : s1 = s2 → quotient.1 = quotient.2) : Similarity s1 s2 n := by
  have hvalue := simValue_of_sim h1 h2 hsim
  have hvalue' := simValue_of_sim h2 h1 hsim'
  rw [← hsymm] at hvalue'
  have hpos' : (0 : ℚ) < quotient.2 := Int.cast_pos.mpr hpos
  refine ⟨⟨quotient.1, quotient.2, ?_, hpos⟩, hcommon, hvalue.trans hvalue'.symm, ⟨_, hvalue, ?_, ?_⟩, ?_⟩
  · rw [calStringSim_some n h1 h2, hsim]
  · exact div_nonneg (Int.cast_nonneg hnonneg) hpos'.le
  · rw [div_le_one hpos']
    exact Int.cast_le.mpr hle
  · intro heq
    rw [hvalue, hself heq, div_self hpos'.ne']

/-- What is at least 1 and at most `2 ^ 32` is positive as an `int` if it is one. -/
theorem toInt32_pos_iff {value : Int} (hge : 1 ≤ value) (hle : value ≤ 2 ^ 32) :
    0 < toInt32 value ↔ value < 2 ^ 31 := by
  have hmod := toInt32_emod value
  have hlt := toInt32_lt value
  constructor
  · intro hpos
    omega
  · intro hint
    rw [toInt32_of_range (by omega) hint]
    omega

/-! ### A string shorter than `n` -/

theorem find_isNone_iff : (find s1 s2).isNone = true ↔ ¬ s1 <:+: s2 := by
  constructor
  · intro hnone hoccurs
    obtain ⟨piece, rest, rfl, hleft⟩ := exists_leftmost hoccurs
    rw [find_of_leftmost hleft] at hnone
    cases hnone
  · intro hnot
    rw [find_of_absent hnot]
    rfl

/-- Of two strings that are equally long, or neither of which occurs in the other, each occurs in the other if
the other does so in it; of any other two only the shorter one can. -/
theorem find_isNone_comm_iff :
    (find s1 s2).isNone = (find s2 s1).isNone ↔
      s1.length = s2.length ∨ ¬ s1 <:+: s2 ∧ ¬ s2 <:+: s1 := by
  rw [Bool.eq_iff_iff, find_isNone_iff, find_isNone_iff]
  constructor
  · intro hiff
    by_cases hoccurs : s1 <:+: s2
    · have hoccurs' : s2 <:+: s1 := not_not.mp fun hnot => hiff.mpr hnot hoccurs
      exact Or.inl (Nat.le_antisymm hoccurs.length_le hoccurs'.length_le)
    · exact Or.inr ⟨hoccurs, hiff.mp hoccurs⟩
  · rintro (hlen | ⟨hnot, hnot'⟩)
    · constructor
      · intro hnot hoccurs
        exact hnot (hoccurs.eq_of_length hlen.symm ▸ List.infix_rfl)
      · intro hnot hoccurs
        exact hnot (hoccurs.eq_of_length hlen ▸ List.infix_rfl)
    · exact iff_of_true hnot hnot'

/-- Whether the one occurs in the other, over the number of places where it could. -/
def wholeQuotient (short long : Str) : Int × Int :=
  (if (find short long).isNone then 0 else 1, toInt32 (toInt32 long.length - toInt32 short.length + 1))

section Short

variable (hlt : toInt32 s1.length < n)

include hlt

theorem nonemptySim_of_le (hle : toInt32 s1.length ≤ toInt32 s2.length) :
    nonemptySim s1 s2 n = some (wholeQuotient s1 s2) := by
  simp only [nonemptySim, if_pos (And.intro hlt hle), wholeQuotient]

/-- The string that is not shorter comes first. -/
theorem nonemptySim_of_lt (hless : toInt32 s1.length < toInt32 s2.length) :
    nonemptySim s2 s1 n = some (wholeQuotient s1 s2) := by
  have hlong : ¬ (toInt32 s2.length < n ∧ toInt32 s2.length ≤ toInt32 s1.length) := by omega
  simp only [nonemptySim, if_neg hlong, if_pos (And.intro hlt hless.le), wholeQuotient]

/-- The two quotients, which differ only in which string is looked for. -/
theorem nonemptySim_comm (hle : toInt32 s1.length ≤ toInt32 s2.length) :
    ∃ quotient, nonemptySim s2 s1 n = some quotient ∧ quotient.2 = (wholeQuotient s1 s2).2 ∧
      (quotient = wholeQuotient s1 s2 ↔ (toInt32 s1.length = toInt32 s2.length →
        (find s1 s2).isNone = (find s2 s1).isNone)) := by
  rcases hle.lt_or_eq with hless | heq
  · refine ⟨_, nonemptySim_of_lt hlt hless, rfl, iff_of_true rfl fun heq => ?_⟩
    omega
  · refine ⟨_, nonemptySim_of_le (heq ▸ hlt) heq.ge, ?_, ?_⟩
    · simp only [wholeQuotient, heq]
    · simp only [wholeQuotient, heq, Prod.mk.injEq, and_true, forall_const]
      cases (find s1 s2).isNone <;> cases (find s2 s1).isNone <;> decide

theorem similarity_iff_of_le (h1 : s1 ≠ []) (h2 : s2 ≠ [])
    (hle : toInt32 s1.length ≤ toInt32 s2.length) :
    (Similarity s1 s2 n ↔ Comparable s1 s2 n) ∧ (Similarity s2 s1 n ↔ Comparable s2 s1 n) := by
  have hshort : ¬ (n ≤ toInt32 s1.length ∧ n ≤ toInt32 s2.length) := by omega
  have hbranch : Comparable s1 s2 n ↔
      toInt32 s2.length - toInt32 s1.length + 1 < 2 ^ 31 ∧
        (toInt32 s1.length = toInt32 s2.length → (find s1 s2).isNone = (find s2 s1).isNone) := by
    rw [Comparable, if_neg hshort, find_isNone_comm_iff, abs_sub_comm, abs_of_nonneg (by omega)]
  have hsim := nonemptySim_of_le hlt hle
  obtain ⟨quotient, hsim', hsnd, hsame⟩ := nonemptySim_comm hlt hle
  have hmin := neg_le_toInt32 s1.length
  have hmax := toInt32_lt s2.length
  have hpos : 0 < (wholeQuotient s1 s2).2 ↔ toInt32 s2.length - toInt32 s1.length + 1 < 2 ^ 31 :=
    toInt32_pos_iff (by omega) (by omega)
  have hdividend : 0 ≤ (wholeQuotient s1 s2).1 ∧ (wholeQuotient s1 s2).1 ≤ 1 := by
    simp only [wholeQuotient]
    split_ifs <;> decide
  have hself : s1 = s2 → (wholeQuotient s1 s2).1 = (wholeQuotient s1 s2).2 := by
    rintro rfl
    have hfind : ¬ (find s1 s1).isNone = true := by
      rw [find_isNone_iff]
      exact not_not.mpr List.infix_rfl
    simp only [wholeQuotient, if_neg hfind, sub_self, zero_add]
    decide
  -- The values are the same only if the dividends are, since the divisor is not 0.
  have hsymm : 0 < (wholeQuotient s1 s2).2 → simValue s1 s2 n = simValue s2 s1 n →
      quotient = wholeQuotient s1 s2 := by
    intro hpos hvalue
    rw [simValue_of_sim h1 h2 hsim, simValue_of_sim h2 h1 hsim', hsnd, Option.some.injEq,
      div_left_inj' (by exact_mod_cast hpos.ne'), Int.cast_inj] at hvalue
    exact Prod.ext hvalue.symm hsnd
  rw [@comparable_comm s2 s1, hbranch, ← hsame, ← hpos]
  constructor
  · constructor
    · intro hsimilarity
      have hpos := hsimilarity.divisor_pos h1 h2 hsim
      exact ⟨hpos, hsymm hpos hsimilarity.symm⟩
    · rintro ⟨hpos, hquotient⟩
      exact similarity_of_bounds h1 h2 hsim hsim' hquotient.symm hpos hdividend.1 (by omega)
        (fun hle1 => by omega) hself
  · constructor
    · intro hsimilarity
      have hpos := hsimilarity.divisor_pos h2 h1 hsim'
      rw [hsnd] at hpos
      exact ⟨hpos, hsymm hpos hsimilarity.symm.symm⟩
    · rintro ⟨hpos, rfl⟩
      exact similarity_of_bounds h2 h1 hsim' hsim rfl hpos hdividend.1 (by omega)
        (fun _ hle1 => by omega) fun heq => hself heq.symm

end Short

/-! ### Strings of at least `n` characters -/

/-- The n-grams that the code sees. -/
theorem ngrams_eq {s : Str} (hn : 1 ≤ n) (hle : n ≤ toInt32 s.length) :
    ngrams s n = substrings (visible s) n.toNat := by
  have hmax := toInt32_lt s.length
  have hcount : toInt32 (toInt32 s.length - n + 1) = toInt32 s.length - n + 1 :=
    toInt32_of_range (by omega) (by omega)
  have hpositions : (toInt32 s.length - n + 1).toNat = (visible s).length + 1 - n.toNat := by
    rw [length_visible]
    omega
  rw [ngrams, hcount, hpositions, substrings]
  apply List.map_congr_left
  intro i hi
  have hlast := List.mem_range.mp hi
  rw [length_visible] at hlast
  rw [visible, List.drop_take, List.take_take, Nat.min_eq_left (by omega)]

theorem length_substrings (s : Str) (n : ℕ) : (substrings s n).length = s.length + 1 - n := by
  rw [substrings, List.length_map, List.length_range]

theorem ngramCommon_eq_shared (hn : 1 ≤ n) (hle1 : n ≤ toInt32 s1.length) (hle2 : n ≤ toInt32 s2.length) :
    ngramCommon s1 s2 n = shared (visible s1) (visible s2) n.toNat := by
  rw [ngramCommon_eq, ngrams_eq hn hle1, ngrams_eq hn hle2, shared]

/-- The size of the intersection, from either side. -/
theorem ngramCommon_comm (s1 s2 : Str) (n : Int) : ngramCommon s1 s2 n = ngramCommon s2 s1 n := by
  rw [ngramCommon_eq, ngramCommon_eq, Multiset.inter_comm]

theorem ngramCommon_le (s1 s2 : Str) (n : Int) : ngramCommon s1 s2 n ≤ (ngrams s1 n).length := by
  rw [ngramCommon_eq]
  exact Multiset.card_le_card Multiset.inter_le_left

theorem ngramCommon_self (s : Str) (n : Int) : ngramCommon s s n = (ngrams s n).length := by
  have hself : (ngrams s n : Multiset Str) ∩ ngrams s n = ngrams s n :=
    le_antisymm Multiset.inter_le_left (Multiset.le_inter le_rfl le_rfl)
  rw [ngramCommon_eq, hself, Multiset.coe_card]

section Long

variable (hn : 1 ≤ n) (hle1 : n ≤ toInt32 s1.length) (hle2 : n ≤ toInt32 s2.length)

include hn hle1 hle2

theorem nonemptySim_of_long :
    nonemptySim s1 s2 n = some (toInt32 (2 * ngramCommon s1 s2 n),
      toInt32 (toInt32 s1.length + toInt32 s2.length - 2 * n + 2)) := by
  simp only [nonemptySim]
  rw [if_neg (by omega), if_neg (by omega), if_neg (by omega)]

/-- Twice what the strings have in common is at most what they have together. -/
theorem two_mul_ngramCommon_le :
    2 * (ngramCommon s1 s2 n : Int) ≤ toInt32 s1.length + toInt32 s2.length - 2 * n + 2 := by
  have hcommon1 := ngramCommon_le s1 s2 n
  have hcommon2 := ngramCommon_le s2 s1 n
  rw [ngrams_eq hn hle1, length_substrings, length_visible] at hcommon1
  rw [ngramCommon_comm, ngrams_eq hn hle2, length_substrings, length_visible] at hcommon2
  omega

theorem similarity_iff_of_long (h1 : s1 ≠ []) (h2 : s2 ≠ []) :
    Similarity s1 s2 n ↔ Comparable s1 s2 n := by
  have hsim := nonemptySim_of_long hn hle1 hle2
  have hsim' := nonemptySim_of_long hn hle2 hle1
  have htwice := two_mul_ngramCommon_le hn hle1 hle2
  have hmax1 := toInt32_lt s1.length
  have hmax2 := toInt32_lt s2.length
  rw [Comparable, if_pos ⟨hle1, hle2⟩]
  constructor
  · intro hsimilarity
    have hpos := (toInt32_pos_iff (by omega) (by omega)).mp (hsimilarity.divisor_pos h1 h2 hsim)
    have hcommon := hsimilarity.common hle1 hle2
    rw [ngramCommon_eq_shared hn hle1 hle2] at hcommon
    exact ⟨hpos, hcommon⟩
  · rintro ⟨hint, hshared⟩
    rw [toInt32_of_range (by omega) (by omega), toInt32_of_range (by omega) hint] at hsim
    rw [← ngramCommon_comm s1, add_comm (toInt32 s2.length), toInt32_of_range (by omega) (by omega),
      toInt32_of_range (by omega) hint] at hsim'
    refine similarity_of_bounds h1 h2 hsim hsim' rfl ?_ ?_ htwice ?_ ?_
    · dsimp only
      omega
    · dsimp only
      omega
    · intro _ _
      rw [ngramCommon_eq_shared hn hle1 hle2, hshared]
    · rintro rfl
      rw [ngramCommon_self, ngrams_eq hn hle1, length_substrings, length_visible]
      dsimp only
      omega

end Long

/-- **Where the quotient is a similarity**, for strings of any length. -/
theorem similarity_iff (h1 : s1 ≠ []) (h2 : s2 ≠ []) (hn : 1 ≤ n) :
    Similarity s1 s2 n ↔ Comparable s1 s2 n := by
  by_cases hlong : n ≤ toInt32 s1.length ∧ n ≤ toInt32 s2.length
  · exact similarity_iff_of_long hn hlong.1 hlong.2 h1 h2
  · rcases le_total (toInt32 s1.length) (toInt32 s2.length) with hle | hle
    · exact (similarity_iff_of_le (by omega) h1 h2 hle).1
    · exact (similarity_iff_of_le (by omega) h2 h1 hle).2

theorem similarity_iff_abab : Similarity ['a', 'b', 'a'] ['b', 'a'] 2 :=
  (similarity_iff (List.cons_ne_nil _ _) (List.cons_ne_nil _ _) (by decide)).mpr (by decide)

/-! ### A divisor that is no `int` -/

theorem substrings_replicate (c : Char) (count : ℕ) :
    substrings (List.replicate count c) 1 = List.replicate count [c] := by
  rw [substrings, List.length_replicate, Nat.add_sub_cancel, List.eq_replicate_iff]
  refine ⟨by rw [List.length_map, List.length_range], fun gram hgram => ?_⟩
  obtain ⟨i, hi, rfl⟩ := List.mem_map.mp hgram
  have hone : min 1 (count - i) = 1 := by
    have hlt := List.mem_range.mp hi
    omega
  rw [List.drop_replicate, List.take_replicate, hone, List.replicate_one]

theorem nonemptySim_replicate (c : Char) {short long : ℕ} (hpos : 1 ≤ short) (hle : short ≤ long)
    (hlt : long < 2 ^ 31) :
    nonemptySim (List.replicate short c) (List.replicate long c) 1 =
      some (toInt32 (2 * short), toInt32 (short + long)) := by
  have hint : ∀ {count : ℕ}, count < 2 ^ 31 → toInt32 (List.replicate count c).length = count := by
    intro count hcount
    rw [List.length_replicate, toInt32_of_lt hcount]
  have hint1 := hint (hle.trans_lt hlt)
  have hint2 := hint hlt
  have hgrams : ∀ {count : ℕ}, 1 ≤ count → count < 2 ^ 31 →
      ngrams (List.replicate count c) 1 = List.replicate count [c] := by
    intro count hone hcount
    have hcount' := hint hcount
    rw [ngrams_eq le_rfl (by omega), visible_of_lt (by rwa [List.length_replicate])]
    exact substrings_replicate c count
  have hcommon : ngramCommon (List.replicate short c) (List.replicate long c) 1 = short := by
    rw [ngramCommon_eq, hgrams hpos (hle.trans_lt hlt), hgrams (hpos.trans hle) hlt,
      Multiset.coe_replicate, Multiset.coe_replicate, Multiset.replicate_inter,
      Multiset.count_replicate_self, min_eq_left hle, Multiset.card_replicate]
  rw [nonemptySim_of_long le_rfl (by omega) (by omega), hcommon, hint1, hint2]
  congr 3
  omega

/-- With `2 ^ 30 - 1` and `2 ^ 30 + 1` times the same character the divisor is `-2 ^ 31`, and the strings are
less similar than any others. -/
theorem calStringSim_negative :
    ∃ s1 s2 : Str, s1.length = 2 ^ 30 - 1 ∧ s2.length = 2 ^ 30 + 1 ∧
      calStringSim (some s1) (some s2) 1 = some (2 ^ 31 - 2, -2 ^ 31) ∧ ¬ Similarity s1 s2 1 := by
  have hsim := nonemptySim_replicate 'a' (by decide : 1 ≤ 2 ^ 30 - 1) (by decide : 2 ^ 30 - 1 ≤ 2 ^ 30 + 1)
    (by decide)
  have hdividend : toInt32 (2 * (2 ^ 30 - 1 : ℕ)) = 2 ^ 31 - 2 := by decide
  have hdivisor : toInt32 ((2 ^ 30 - 1 : ℕ) + (2 ^ 30 + 1 : ℕ)) = -2 ^ 31 := by decide
  rw [hdividend, hdivisor] at hsim
  have hne : ∀ {count : ℕ}, count ≠ 0 → List.replicate count 'a' ≠ [] := by
    intro count hzero hnil
    have hlen := congrArg List.length hnil
    rw [List.length_replicate, List.length_nil] at hlen
    exact hzero hlen
  have hcall := calStringSim_some 1 (hne (by decide : 2 ^ 30 - 1 ≠ 0)) (hne (by decide : 2 ^ 30 + 1 ≠ 0))
  rw [hsim] at hcall
  refine ⟨_, _, List.length_replicate, List.length_replicate, hcall, fun hsimilarity => ?_⟩
  obtain ⟨dividend, divisor, heq, hpos⟩ := hsimilarity.divisor
  rw [hcall, Option.some.injEq, Prod.mk.injEq] at heq
  omega

end EasyLib.Common.EasyString
