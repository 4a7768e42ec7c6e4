import Mathlib.Data.List.Nodup
import Mathlib.Data.Nat.ModEq
import Mathlib.Tactic.Common

/-!
# Rotation by a counter that wraps

A counter runs through the numbers below `wrap` again and again, and each value taken modulo `count`
selects one of `count` places. As long as the counter does not wrap, consecutive values select the places
in turn. Where it wraps the turn is kept exactly if `count` divides `wrap`; otherwise the step back is not
a multiple of `count`, and a place comes up again too early.
-/

namespace EasyLib.Rotation

variable {wrap count first : ℕ}

/-- The places that `length` consecutive values select, from the value `first` on. -/
def places (wrap count first length : ℕ) : List ℕ :=
  (List.range length).map fun j => (first + j) % wrap % count

theorem places_succ (wrap count first length : ℕ) :
    places wrap count first (length + 1) =
      first % wrap % count :: places wrap count ((first + 1) % wrap) length := by
  rw [places, List.range_succ_eq_map, List.map_cons, List.map_map, Nat.add_zero]
  refine congrArg _ (List.map_congr_left fun j _ => ?_)
  rw [Function.comp_apply, Nat.mod_add_mod, Nat.succ_eq_add_one, Nat.add_assoc, Nat.add_comm 1 j]

theorem places_nodup_iff {length : ℕ} :
    (places wrap count first length).Nodup ↔
      ∀ i < length, ∀ j < length, (first + i) % wrap % count = (first + j) % wrap % count → i = j := by
  rw [places, List.nodup_map_iff_inj_on List.nodup_range]
  simp only [List.mem_range]

/-- `count` consecutive numbers have different remainders. -/
theorem eq_of_mod_eq {i j : ℕ} (hi : i < count) (hj : j < count)
    (h : (first + i) % count = (first + j) % count) : i = j :=
  Nat.ModEq.eq_of_lt_of_lt (Nat.ModEq.add_left_cancel' first h) hi hj

/-- If the counter wraps behind the first value and `count` does not divide `wrap`, two of the values a
distance of `wrap % count` apart select the same place. -/
theorem exists_collision (hfirst : first < wrap) (hcount : 0 < count) (hdvd : ¬ count ∣ wrap)
    (hwrap : wrap < first + count) :
    ∃ i, i + wrap % count < count ∧
      (first + i) % wrap % count = (first + (i + wrap % count)) % wrap % count := by
  have hpos : 0 < wrap % count := Nat.pos_of_ne_zero fun hzero => hdvd (Nat.dvd_of_mod_eq_zero hzero)
  have hlt : wrap % count < count := Nat.mod_lt _ hcount
  have hle : wrap % count ≤ wrap := Nat.mod_le _ _
  -- `i` is the first value from which the distance leads over the wrap
  refine ⟨wrap - first - wrap % count, by omega, ?_⟩
  generalize hi : wrap - first - wrap % count = i
  obtain ⟨back, hback⟩ : ∃ back, first + (i + wrap % count) = wrap + back :=
    Nat.exists_eq_add_of_le (by omega)
  have hsame : first + i = back + count * (wrap / count) := by
    have hdiv := Nat.mod_add_div wrap count
    omega
  calc (first + i) % wrap % count
      = (first + i) % count := by rw [Nat.mod_eq_of_lt (by omega : first + i < wrap)]
    _ = back % count := by rw [hsame, Nat.add_mul_mod_self_left]
    _ = (wrap + back) % wrap % count := by rw [Nat.add_mod_left, Nat.mod_eq_of_lt (by omega : back < wrap)]
    _ = (first + (i + wrap % count)) % wrap % count := by rw [hback]

/-- `count` consecutive values select every place once exactly if `count` divides `wrap` or the counter
does not wrap behind the first of them. -/
theorem places_nodup_iff_dvd_or_le (hfirst : first < wrap) (hcount : 0 < count) :
    (places wrap count first count).Nodup ↔ count ∣ wrap ∨ first + count ≤ wrap := by
  rw [places_nodup_iff]
  constructor
  · intro hinj
    by_contra hnot
    obtain ⟨hdvd, hwrap⟩ := not_or.mp hnot
    obtain ⟨i, hi, hsame⟩ := exists_collision hfirst hcount hdvd (not_le.mp hwrap)
    have heq := hinj i (by omega) _ hi hsame
    exact hdvd (Nat.dvd_of_mod_eq_zero (by omega))
  · rintro (hdvd | hle) i hi j hj hsame
    · rw [Nat.mod_mod_of_dvd _ hdvd, Nat.mod_mod_of_dvd _ hdvd] at hsame
      exact eq_of_mod_eq hi hj hsame
    · rw [Nat.mod_eq_of_lt (by omega : first + i < wrap),
        Nat.mod_eq_of_lt (by omega : first + j < wrap)] at hsame
      exact eq_of_mod_eq hi hj hsame

end EasyLib.Rotation
