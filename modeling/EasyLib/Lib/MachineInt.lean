import Mathlib.Data.BitVec
import Mathlib.Tactic.Common

/-!
# Fixed-width integer arithmetic

The conversions and the unsigned operations of a 64-bit C++ target, on `Nat` and `Int` with the
wrap-around written out. Each comes with the lemma that says when it does not wrap, so that a proof
states the bound once and then reasons about plain numbers.
-/

namespace EasyLib.MachineInt

/-- The conversion to `int`: the representative of `value` modulo `2 ^ 32` in `[-2 ^ 31, 2 ^ 31)`. -/
def toInt32 (value : Int) : Int := (BitVec.ofInt 32 value).toInt

def toUInt64 (value : Int) : Nat := (value % 2 ^ 64).toNat

def toUInt16 (value : Int) : Nat := (value % 2 ^ 16).toNat

def addSize (left right : Nat) : Nat := (left + right) % 2 ^ 64

def subSize (left right : Nat) : Nat := toUInt64 (left - right)

theorem toInt32_eq_bmod (value : Int) : toInt32 value = value.bmod (2 ^ 32) :=
  BitVec.toInt_ofInt value

theorem toInt32_of_range {value : Int} (hge : -2 ^ 31 ≤ value) (hlt : value < 2 ^ 31) :
    toInt32 value = value := by
  rw [toInt32_eq_bmod]
  exact Int.bmod_eq_of_le (by omega) (by omega)

theorem toInt32_of_lt {value : Nat} (h : value < 2 ^ 31) : toInt32 value = value := by
  rw [toInt32_eq_bmod]
  exact Int.bmod_eq_of_le (by omega) (by omega)

theorem toInt32_of_ge {value : Nat} (hge : 2 ^ 31 ≤ value) (hlt : value < 2 ^ 32) :
    toInt32 value = (value : Int) - 2 ^ 32 := by
  rw [toInt32_eq_bmod, Int.bmod_def]
  omega

theorem toInt32_lt (value : Int) : toInt32 value < 2 ^ 31 := by
  rw [toInt32_eq_bmod]
  exact Int.bmod_lt (by decide)

theorem neg_le_toInt32 (value : Int) : -2 ^ 31 ≤ toInt32 value := by
  rw [toInt32_eq_bmod]
  exact Int.le_bmod (by decide)

/-- Narrowing forgets multiples of `2 ^ 32`, and nothing else. -/
theorem toInt32_le (value : Nat) : toInt32 value ≤ value := by
  rw [toInt32_eq_bmod, Int.bmod_def]
  split <;> omega

theorem toInt32_emod (value : Int) : toInt32 value % 2 ^ 32 = value % 2 ^ 32 := by
  rw [toInt32_eq_bmod, Int.bmod_def]
  split <;> omega

theorem toInt32_eq_toInt32_iff {left right : Int} :
    toInt32 left = toInt32 right ↔ left % 2 ^ 32 = right % 2 ^ 32 := by
  rw [toInt32_eq_bmod, toInt32_eq_bmod, Int.bmod_def, Int.bmod_def]
  omega

theorem toUInt64_lt (value : Int) : toUInt64 value < 2 ^ 64 := by
  unfold toUInt64
  omega

theorem toUInt64_of_nonneg {value : Int} (hnonneg : 0 ≤ value) (hlt : value < 2 ^ 64) :
    toUInt64 value = value := by
  unfold toUInt64
  omega

theorem toUInt64_natCast {value : Nat} (h : value < 2 ^ 64) : toUInt64 value = value := by
  unfold toUInt64
  omega

theorem toUInt64_of_neg {value : Int} (hneg : value < 0) (hge : -2 ^ 64 ≤ value) :
    toUInt64 value = value + 2 ^ 64 := by
  unfold toUInt64
  omega

/-- A counter that is an `int` and is used as an index. -/
theorem toUInt64_toInt32 {index : Nat} (h : index < 2 ^ 31) : toUInt64 (toInt32 index) = index := by
  rw [toInt32_of_lt h, toUInt64_natCast (by omega)]

/-- Behind the index `2 ^ 31 - 1` such a counter is larger than any size. -/
theorem toUInt64_toInt32_wrapped : toUInt64 (toInt32 (2 ^ 31 : Nat)) = 2 ^ 64 - 2 ^ 31 := by decide

theorem toInt32_toInt32 (value : Int) : toInt32 (toInt32 value) = toInt32 value := by
  rw [toInt32_eq_toInt32_iff, toInt32_emod]

theorem toInt32_succ (value : Int) : toInt32 (toInt32 value + 1) = toInt32 (value + 1) := by
  rw [toInt32_eq_toInt32_iff]
  have hmod := toInt32_emod value
  omega

theorem addSize_of_lt {left right : Nat} (h : left + right < 2 ^ 64) :
    addSize left right = left + right := Nat.mod_eq_of_lt h

theorem subSize_of_le {left right : Nat} (hle : right ≤ left) (hlt : left < 2 ^ 64) :
    subSize left right = left - right := by
  unfold subSize toUInt64
  omega

end EasyLib.MachineInt
