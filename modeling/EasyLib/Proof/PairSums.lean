import EasyLib.Leecode.TwoSum

/-!
# Pairs with a given sum

Of the two indices of a pair the loop gets to the smaller one first, unless it has returned before. The map
has the last index of the number that is missing there, which is not smaller than the other index of the
pair, so it is not taken for the index itself. Both loops read the first `2 ^ 31` numbers, and a pair with an
index behind them is overlooked.
-/

namespace EasyLib.Leecode.Solution

open Loop MachineInt

variable {elems front : List Int} {hmap : OrdMap Int Int} {target num x y : Int} {i j : ℕ}

/-- Two different indices whose numbers have the sum `target`, as `int`s. -/
def IsPair (elems : List Int) (target : Int) (i j : ℕ) : Prop :=
  i ≠ j ∧ ∃ x y, elems[i]? = some x ∧ elems[j]? = some y ∧ (x + y) % 2 ^ 32 = target % 2 ^ 32

theorem IsPair.symm (h : IsPair elems target i j) : IsPair elems target j i := by
  obtain ⟨hne, x, y, hx, hy, hsum⟩ := h
  exact ⟨hne.symm, y, x, hy, hx, by rwa [add_comm]⟩

/-- What is missing to the target. -/
theorem eq_missing_iff (hy : toInt32 y = y) :
    toInt32 (target - x) = y ↔ (x + y) % 2 ^ 32 = target % 2 ^ 32 := by
  rw [← hy, toInt32_eq_toInt32_iff, hy]
  omega

theorem getElem?_concat_cases {Elem : Type*} {front : List Elem} {elem last : Elem} {index : ℕ}
    (h : (front ++ [last])[index]? = some elem) :
    front[index]? = some elem ∨ index = front.length ∧ elem = last := by
  have hlt := (List.getElem?_eq_some_iff.mp h).1
  rw [List.length_append, List.length_singleton] at hlt
  rcases Nat.lt_succ_iff_lt_or_eq.mp hlt with hfront | rfl
  · rw [List.getElem?_append_left hfront] at h
    exact Or.inl h
  · rw [List.getElem?_concat_length] at h
    exact Or.inr ⟨rfl, (Option.some.inj h).symm⟩

/-! ### The map -/

/-- Every number of the list is found, and an index found is one of its indices and not smaller than any. -/
structure LastIndices (elems : List Int) (hmap : OrdMap Int Int) : Prop where
  sound : ∀ num second, hmap.find num = some second → ∃ j : ℕ, second = j ∧ elems[j]? = some num
  latest : ∀ num (j : ℕ), elems[j]? = some num → ∃ last : ℕ, j ≤ last ∧ hmap.find num = some (last : Int)

theorem lastIndices_empty : LastIndices [] OrdMap.empty where
  sound := fun num second h => by cases h
  latest := fun num j h => by cases h

theorem LastIndices.push (h : LastIndices front hmap) (num : Int) :
    LastIndices (front ++ [num]) (hmap.alter num fun _ => front.length) := by
  constructor
  · intro other second hfind
    rw [OrdMap.find_alter] at hfind
    split_ifs at hfind with heq
    · refine ⟨front.length, (Option.some.inj hfind).symm, ?_⟩
      rw [List.getElem?_concat_length, heq]
    · obtain ⟨j, hsecond, hj⟩ := h.sound other second hfind
      exact ⟨j, hsecond, by rw [List.getElem?_append_left (List.getElem?_eq_some_iff.mp hj).1, hj]⟩
  · intro other j hj
    rw [OrdMap.find_alter]
    split_ifs with heq
    · have hlt := (List.getElem?_eq_some_iff.mp hj).1
      rw [List.length_append, List.length_singleton] at hlt
      exact ⟨front.length, Nat.le_of_lt_succ hlt, rfl⟩
    · rcases getElem?_concat_cases hj with hj | ⟨-, hother⟩
      · exact h.latest other j hj
      · exact absurd hother heq

theorem forLoop_indexBody (nums : IntVector) :
    ∃ hmap, forLoop nums.elems indexBody id OrdMap.empty = some hmap ∧
      LastIndices (reached nums.elems) hmap := by
  refine forLoop_rule LastIndices (LastIndices (reached nums.elems)) ?_ ?_ ?_ lastIndices_empty
  · exact nums.size_le.trans (by decide)
  · intro front num rest hmap _ h
    exact h.push num
  · exact fun hmap h => h

/-! ### The search -/

/-- What the search is to find. -/
def Found (elems : List Int) (target : Int) (result : List Int) : Prop :=
  (∃ i j : ℕ, result = [(i : Int), (j : Int)] ∧ IsPair elems target i j) ∨
    result = [] ∧ ∀ i j, ¬ IsPair elems target i j

/-- Up to here, what is missing has been found nowhere but at the number itself. -/
def Missed (hmap : OrdMap Int Int) (target : Int) (front result : List Int) : Prop :=
  result = [] ∧ ∀ (i : ℕ) x, front[i]? = some x → ∀ second ∈ hmap.find (toInt32 (target - x)), second = i

theorem Missed.push (h : Missed hmap target front [])
    (hnum : ∀ second ∈ hmap.find (toInt32 (target - num)), second = (front.length : Int)) :
    Missed hmap target (front ++ [num]) [] := by
  refine ⟨rfl, fun i x hx => ?_⟩
  rcases getElem?_concat_cases hx with hx | ⟨rfl, rfl⟩
  · exact h.2 i x hx
  · exact hnum

/-- The body of the search goes on without a result or returns a pair. -/
theorem searchBody_elim (hlast : LastIndices elems hmap) (hnum : elems[front.length]? = some num)
    (h : Missed hmap target front []) :
    (searchBody hmap target [] front.length num).elim (Missed hmap target (front ++ [num]))
      (Found elems target) := by
  rw [searchBody]
  cases hfind : hmap.find (toInt32 (target - num)) with
  | none =>
      apply h.push
      rw [hfind]
      exact fun second hsecond => by cases hsecond
  | some second =>
      by_cases hself : second = front.length
      · simp only [if_pos hself, Sum.elim_inl]
        apply h.push
        rw [hfind]
        exact fun other hother => (Option.some.inj hother).symm.trans hself
      · simp only [if_neg hself, Sum.elim_inr]
        obtain ⟨j, rfl, hj⟩ := hlast.sound _ second hfind
        refine Or.inl ⟨front.length, j, rfl, ?_, num, _, hnum, hj, ?_⟩
        · rintro rfl
          exact hself rfl
        · exact (eq_missing_iff (toInt32_toInt32 _)).mp rfl

/-- A pair is not missed: at its smaller index the map has an index that is not smaller than the other. -/
theorem Missed.not_isPair (h : Missed hmap target elems []) (hlast : LastIndices elems hmap)
    (hint : ∀ num ∈ elems, toInt32 num = num) (i j : ℕ) : ¬ IsPair elems target i j := by
  have hlt : ∀ i j : ℕ, i < j → ¬ IsPair elems target i j := by
    rintro i j hij ⟨-, x, y, hx, hy, hsum⟩
    obtain ⟨last, hle, hfind⟩ := hlast.latest y j hy
    have hmissing := (eq_missing_iff (hint y (List.mem_of_getElem? hy))).mpr hsum
    have hself := h.2 i x hx last (by rw [hmissing, hfind]; rfl)
    omega
  intro hpair
  rcases Nat.lt_or_gt_of_ne hpair.1 with hij | hji
  · exact hlt i j hij hpair
  · exact hlt j i hji hpair.symm

/-- `twoSum` is right about the numbers that its loops read. -/
theorem twoSum_found (nums : IntVector) (target : Int) :
    ∃ result, twoSum nums target = some result ∧ Found (reached nums.elems) target result := by
  obtain ⟨hmap, hindex, hlast⟩ := forLoop_indexBody nums
  rw [twoSum, hindex, Option.bind_some]
  refine forLoop_rule (Missed hmap target) (Found (reached nums.elems) target) ?_ ?_ ?_ ⟨rfl, ?_⟩
  · exact nums.size_le.trans (by decide)
  · rintro front num rest result hreached ⟨rfl, h⟩
    refine searchBody_elim hlast ?_ ⟨rfl, h⟩
    rw [hreached, List.getElem?_append_right le_rfl, Nat.sub_self, List.getElem?_cons_zero]
  · rintro result ⟨rfl, h⟩
    refine Or.inr ⟨rfl, Missed.not_isPair ⟨rfl, h⟩ hlast fun num hnum => ?_⟩
    exact nums.isInt num (List.mem_of_mem_take hnum)
  · intro i x hx
    cases hx

/-! ### All of the numbers -/

theorem isPair_reached_iff :
    IsPair (reached elems) target i j ↔ IsPair elems target i j ∧ i < 2 ^ 31 ∧ j < 2 ^ 31 := by
  simp only [IsPair, reached, List.getElem?_take]
  constructor
  · rintro ⟨hne, x, y, hx, hy, hsum⟩
    split_ifs at hx with hi
    split_ifs at hy with hj
    exact ⟨⟨hne, x, y, hx, hy, hsum⟩, hi, hj⟩
  · rintro ⟨⟨hne, x, y, hx, hy, hsum⟩, hi, hj⟩
    exact ⟨hne, x, y, by rw [if_pos hi, hx], by rw [if_pos hj, hy], hsum⟩

/-- `twoSum` ends with the indices of a pair if there is one, and with an empty vector otherwise. -/
def Solves (nums : IntVector) (target : Int) : Prop :=
  ∃ result, twoSum nums target = some result ∧
    ((∃ i j, IsPair nums.elems target i j) →
      ∃ i j : ℕ, result = [(i : Int), (j : Int)] ∧ IsPair nums.elems target i j) ∧
    ((¬ ∃ i j, IsPair nums.elems target i j) → result = [])

theorem IsPair.lt_length (h : IsPair elems target i j) : i < elems.length ∧ j < elems.length := by
  obtain ⟨-, x, y, hx, hy, -⟩ := h
  exact ⟨(List.getElem?_eq_some_iff.mp hx).1, (List.getElem?_eq_some_iff.mp hy).1⟩

theorem solves_of_reached {nums : IntVector}
    (h : (∃ i j, IsPair nums.elems target i j) → ∃ i j, IsPair (reached nums.elems) target i j) :
    Solves nums target := by
  obtain ⟨result, hresult, ⟨i, j, heq, hpair⟩ | ⟨rfl, hnone⟩⟩ := twoSum_found nums target
  · have hpair' := (isPair_reached_iff.mp hpair).1
    exact ⟨result, hresult, fun _ => ⟨i, j, heq, hpair'⟩, fun hnot => absurd ⟨i, j, hpair'⟩ hnot⟩
  · refine ⟨[], hresult, fun hexists => ?_, fun _ => rfl⟩
    obtain ⟨i, j, hpair⟩ := h hexists
    exact absurd hpair (hnone i j)

theorem Solves.reached {nums : IntVector} (h : Solves nums target)
    (hexists : ∃ i j, IsPair nums.elems target i j) : ∃ i j, IsPair (reached nums.elems) target i j := by
  obtain ⟨result, hresult, hpairs, -⟩ := h
  obtain ⟨i, j, rfl, -⟩ := hpairs hexists
  obtain ⟨result', hresult', hfound⟩ := twoSum_found nums target
  obtain rfl : [(i : Int), (j : Int)] = result' := Option.some.inj (hresult.symm.trans hresult')
  rcases hfound with ⟨i', j', -, hpair⟩ | ⟨hnil, -⟩
  · exact ⟨i', j', hpair⟩
  · cases hnil

/-- `twoSum` is right exactly if a pair, where there is one, need not be looked for behind the first `2 ^ 31`
numbers; and always if there are no more numbers than that. -/
theorem twoSum_solves_iff (nums : IntVector) (target : Int) :
    (Solves nums target ↔
      ((∃ i j, IsPair nums.elems target i j) →
        ∃ i j, IsPair nums.elems target i j ∧ i < 2 ^ 31 ∧ j < 2 ^ 31)) ∧
    (nums.elems.length ≤ 2 ^ 31 → Solves nums target) := by
  simp only [← isPair_reached_iff]
  refine ⟨⟨Solves.reached, solves_of_reached⟩, fun hlen => solves_of_reached ?_⟩
  rintro ⟨i, j, hpair⟩
  obtain ⟨hi, hj⟩ := hpair.lt_length
  exact ⟨i, j, isPair_reached_iff.mpr ⟨hpair, by omega, by omega⟩⟩

/-! ### Beyond the counter -/

def zerosThenOne (count : ℕ) (hcount : count + 1 ≤ 2 ^ 61 - 1) : IntVector where
  elems := List.replicate count 0 ++ [1]
  size_le := by rwa [List.length_append, List.length_replicate, List.length_singleton]
  isInt := by
    intro num hnum
    rcases List.mem_append.mp hnum with hzero | hone
    · rw [List.eq_of_mem_replicate hzero]
      decide
    · rw [List.mem_singleton.mp hone]
      decide

theorem not_isPair_replicate (count : ℕ) : ¬ IsPair (List.replicate count 0) 1 i j := by
  rintro ⟨-, x, y, hx, hy, hsum⟩
  obtain rfl : x = 0 := List.eq_of_mem_replicate (List.mem_of_getElem? hx)
  obtain rfl : y = 0 := List.eq_of_mem_replicate (List.mem_of_getElem? hy)
  revert hsum
  decide

theorem isPair_zerosThenOne {count : ℕ} (hpos : 0 < count) (hcount : count + 1 ≤ 2 ^ 61 - 1) :
    IsPair (zerosThenOne count hcount).elems 1 0 count := by
  refine ⟨hpos.ne, 0, 1, ?_, ?_, rfl⟩
  · have hlt : 0 < (List.replicate count (0 : Int)).length := by rwa [List.length_replicate]
    rw [zerosThenOne, List.getElem?_append_left hlt, List.getElem?_replicate_of_lt hpos]
  · have hconcat := List.getElem?_concat_length (l := List.replicate count (0 : Int)) (a := 1)
    rwa [List.length_replicate] at hconcat

/-- Of `2 ^ 31` zeros and a one behind them, the one is not looked at. -/
theorem twoSum_overlooks :
    twoSum (zerosThenOne (2 ^ 31) (by decide)) 1 = some [] ∧
    IsPair (zerosThenOne (2 ^ 31) (by decide)).elems 1 0 (2 ^ 31) := by
  refine ⟨?_, isPair_zerosThenOne (by decide) (by decide)⟩
  have hreached : reached (zerosThenOne (2 ^ 31) (by decide)).elems = List.replicate (2 ^ 31) 0 := by
    rw [reached, zerosThenOne, List.take_left' List.length_replicate]
  obtain ⟨result, hresult, hfound⟩ := twoSum_found (zerosThenOne (2 ^ 31) (by decide)) 1
  rw [hreached] at hfound
  rcases hfound with ⟨i, j, -, hpair⟩ | ⟨rfl, -⟩
  · exact absurd hpair (not_isPair_replicate _)
  · exact hresult

end EasyLib.Leecode.Solution
