import EasyLib.Lib.MachineInt
import Mathlib.Logic.Function.Basic

/-!
# Strings with `int` positions

The members of `std::string` on a 64-bit target, for code that keeps positions in variables of type
`int`. The arguments are converted to `size_t`, where a negative one is larger than the length of any
string: as a position it lies behind the end, and as a count it covers all the rest. A position that is
found is narrowed on its way back. The lemmas describe the calls by how they split the string, for
positions that an `int` holds.
-/

namespace EasyLib.CppString

open MachineInt

variable {α : Type*} {c : α} {front middle back rest : List α}

/-- `substr(pos, count)`. A position behind the end throws `out_of_range`. -/
def substr (str : List α) (pos count : Int) : Option (List α) :=
  if 0 ≤ pos ∧ pos ≤ str.length then
    some (if count < 0 then str.drop pos.toNat else (str.drop pos.toNat).take count.toNat)
  else none

variable [DecidableEq α]

/-- `find(c, pos)`, stored in an `int`. There `npos` is `-1`. -/
def find (str : List α) (c : α) (pos : Int) : Int :=
  if 0 ≤ pos then
    match (str.drop pos.toNat).findIdx? (· = c) with
    | some index => toInt32 (pos + index)
    | none => -1
  else -1

def before (c : α) (str : List α) : List α := str.takeWhile (· ≠ c)

def after (c : α) (str : List α) : List α := (str.dropWhile (· ≠ c)).tail

theorem before_append (h : c ∉ front) : before c (front ++ c :: back) = front := by
  have hall : ∀ a ∈ front, decide (a ≠ c) = true := fun a ha =>
    decide_eq_true fun heq => h (heq ▸ ha)
  rw [before, List.takeWhile_append_of_pos hall, List.takeWhile_cons_of_neg (by simp), List.append_nil]

theorem after_append (h : c ∉ front) : after c (front ++ c :: back) = back := by
  have hall : ∀ a ∈ front, decide (a ≠ c) = true := fun a ha =>
    decide_eq_true fun heq => h (heq ▸ ha)
  rw [after, List.dropWhile_append_of_pos hall, List.dropWhile_cons_of_neg (by simp), List.tail_cons]

omit [DecidableEq α] in
theorem findIdx?_append_cons {p : α → Bool} (hfront : ∀ a ∈ front, ¬ p a) (hc : p c) :
    (front ++ c :: back).findIdx? p = some front.length := by
  have hnone : front.findIdx? p = none :=
    List.findIdx?_eq_none_iff.mpr fun a ha => Bool.eq_false_iff.mpr (hfront a ha)
  rw [List.findIdx?_append, hnone, List.findIdx?_cons, if_pos hc]
  simp

theorem findIdx?_eq_length (h : c ∉ middle) :
    (middle ++ c :: back).findIdx? (· = c) = some middle.length :=
  findIdx?_append_cons (fun _ ha => by simpa using ne_of_mem_of_not_mem ha h) (decide_eq_true rfl)

theorem find_eq (h : c ∉ middle) (hlen : front.length + middle.length < 2 ^ 31) :
    find (front ++ (middle ++ c :: back)) c front.length = (front.length + middle.length : ℕ) := by
  rw [find, if_pos (Int.natCast_nonneg _), Int.toNat_natCast, List.drop_left, findIdx?_eq_length h]
  exact toInt32_of_lt hlen

theorem find_eq_neg_one (h : c ∉ rest) : find (front ++ rest) c front.length = -1 := by
  have hnone : rest.findIdx? (· = c) = none :=
    List.findIdx?_eq_none_iff.mpr fun a ha => decide_eq_false fun heq => h (heq ▸ ha)
  rw [find, if_pos (Int.natCast_nonneg _), Int.toNat_natCast, List.drop_left, hnone]

theorem find_zero_eq (h : c ∉ front) : find (front ++ c :: back) c 0 = toInt32 front.length := by
  rw [find, if_pos le_rfl]
  simp only [Int.toNat_zero, List.drop_zero, findIdx?_eq_length h, Int.zero_add]

theorem find_zero_eq_neg_one {str : List α} (h : c ∉ str) : find str c 0 = -1 := by
  have hfind : find ([] ++ str) c ([] : List α).length = -1 := find_eq_neg_one h
  simpa using hfind

omit [DecidableEq α] in
theorem substr_eq_some {str part : List α} {pos count : Int} (h : substr str pos count = some part) :
    (0 ≤ pos ∧ pos ≤ str.length) ∧
      part = if count < 0 then str.drop pos.toNat else (str.drop pos.toNat).take count.toNat := by
  obtain ⟨hpos, hpart⟩ := Option.ite_none_right_eq_some.mp h
  exact ⟨hpos, (Option.some.inj hpart).symm⟩

omit [DecidableEq α] in
theorem substr_eq {count : ℕ} :
    substr (front ++ rest) front.length count = some (rest.take count) := by
  rw [substr, if_pos (by simp), if_neg (by omega), Int.toNat_natCast, Int.toNat_natCast, List.drop_left]

omit [DecidableEq α] in
theorem substr_eq_middle :
    substr (front ++ (middle ++ back)) front.length middle.length = some middle := by
  rw [substr_eq, List.take_left]

omit [DecidableEq α] in
theorem substr_eq_rest {count : Int} (hneg : count < 0) :
    substr (front ++ rest) front.length count = some rest := by
  rw [substr, if_pos (by simp), if_pos hneg, Int.toNat_natCast, List.drop_left]

omit [DecidableEq α] in
theorem substr_zero_eq : substr (front ++ back) 0 front.length = some front := by
  have hsubstr : substr ([] ++ (front ++ back)) ([] : List α).length front.length = some front :=
    substr_eq_middle
  simpa using hsubstr

/-! ### Segments between separators -/

theorem not_mem_of_mem_splitOn {str segment : List α} (h : segment ∈ str.splitOn c) :
    c ∉ segment := by
  unfold List.splitOn at h
  induction str generalizing segment with
  | nil =>
      rw [List.splitOnP_nil, List.mem_singleton] at h
      rw [h]
      exact List.not_mem_nil
  | cons a str ih =>
      rw [List.splitOnP_cons_eq_if_modifyHead] at h
      split at h
      · rcases List.mem_cons.mp h with rfl | hmem
        · exact List.not_mem_nil
        · exact ih hmem
      · rename_i hne
        cases hsplit : str.splitOnP (· == c) with
        | nil =>
            rw [hsplit] at h
            cases h
        | cons first segments =>
            rw [hsplit, List.modifyHead_cons, List.mem_cons] at h
            rw [hsplit] at ih
            rcases h with rfl | hmem
            · have hfirst := ih List.mem_cons_self
              intro hmem
              rcases List.mem_cons.mp hmem with rfl | hmem
              · exact hne (beq_self_eq_true c)
              · exact hfirst hmem
            · exact ih (List.mem_cons_of_mem first hmem)

/-! ### Maps -/

/-- Assigns the pairs one after another, so that the last of several values for a key counts. -/
def assignAll {Value : Type*} (map : α → Option Value) (pairs : List (α × Value)) : α → Option Value :=
  pairs.foldl (fun map pair => Function.update map pair.1 (some pair.2)) map

end EasyLib.CppString
