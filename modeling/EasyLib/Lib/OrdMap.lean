import Mathlib.Data.List.TakeWhile
import Mathlib.Order.Lattice
import Mathlib.Tactic.Common

/-!
# Maps that are walked in the order of their keys

The C++ `std::map` as its users see it: a list of entries whose keys increase. `begin()` is the head
of the list, `m[key]` finds the value under the key or makes a default one (`alter`), and a loop that
erases from the front while a test on the key holds leaves `dropWhile` of the entries.
-/

namespace EasyLib

structure OrdMap (Key Value : Type*) [LinearOrder Key] where
  entries : List (Key × Value)
  sorted : entries.Pairwise fun left right => left.1 < right.1

namespace OrdMap

variable {Key Value : Type*} [LinearOrder Key]

def empty : OrdMap Key Value := ⟨[], List.Pairwise.nil⟩

def first (m : OrdMap Key Value) : Option Key := m.entries.head?.map Prod.fst

def alterEntries (key : Key) (change : Option Value → Value) :
    List (Key × Value) → List (Key × Value)
  | [] => [(key, change none)]
  | (other, value) :: rest =>
      if key < other then (key, change none) :: (other, value) :: rest
      else if key = other then (other, change (some value)) :: rest
      else (other, value) :: alterEntries key change rest

/-- What an entry of the changed list is. The keys increase, so below the place of the change there is
no second entry under the same key. -/
theorem mem_alterEntries {key : Key} {change : Option Value → Value} {entry : Key × Value} :
    ∀ {entries : List (Key × Value)}, entries.Pairwise (fun left right => left.1 < right.1) →
      entry ∈ alterEntries key change entries →
      entry ∈ entries ∧ entry.1 ≠ key ∨ entry = (key, change none) ∨
        ∃ value, (key, value) ∈ entries ∧ entry = (key, change (some value)) := by
  intro entries
  induction entries with
  | nil =>
      intro _ hmem
      exact Or.inr (Or.inl (List.mem_singleton.mp hmem))
  | cons head rest ih =>
      obtain ⟨other, value⟩ := head
      intro hsorted hmem
      obtain ⟨hhead, hrest⟩ := List.pairwise_cons.mp hsorted
      rw [alterEntries] at hmem
      split_ifs at hmem with hlt heq
      · rcases List.mem_cons.mp hmem with rfl | hmem
        · exact Or.inr (Or.inl rfl)
        · refine Or.inl ⟨hmem, ?_⟩
          rcases List.mem_cons.mp hmem with rfl | hmem
          · exact ne_of_gt hlt
          · exact ne_of_gt (hlt.trans (hhead entry hmem))
      · subst heq
        rcases List.mem_cons.mp hmem with rfl | hmem
        · exact Or.inr (Or.inr ⟨value, List.mem_cons_self, rfl⟩)
        · exact Or.inl ⟨List.mem_cons_of_mem _ hmem, ne_of_gt (hhead entry hmem)⟩
      · rcases List.mem_cons.mp hmem with rfl | hmem
        · exact Or.inl ⟨List.mem_cons_self, Ne.symm heq⟩
        · rcases ih hrest hmem with ⟨hold, hne⟩ | hnone | ⟨value', hold, hsome⟩
          · exact Or.inl ⟨List.mem_cons_of_mem _ hold, hne⟩
          · exact Or.inr (Or.inl hnone)
          · exact Or.inr (Or.inr ⟨value', List.mem_cons_of_mem _ hold, hsome⟩)

theorem alterEntries_sorted (key : Key) (change : Option Value → Value) :
    ∀ {entries : List (Key × Value)}, entries.Pairwise (fun left right => left.1 < right.1) →
      (alterEntries key change entries).Pairwise fun left right => left.1 < right.1 := by
  intro entries
  induction entries with
  | nil =>
      intro _
      exact List.pairwise_singleton _ _
  | cons head rest ih =>
      intro hsorted
      obtain ⟨hhead, hrest⟩ := List.pairwise_cons.mp hsorted
      rw [alterEntries]
      split_ifs with hlt heq
      · refine List.pairwise_cons.mpr ⟨fun entry hentry => ?_, hsorted⟩
        rcases List.mem_cons.mp hentry with rfl | hentry
        · exact hlt
        · exact hlt.trans (hhead entry hentry)
      · exact List.pairwise_cons.mpr ⟨hhead, hrest⟩
      · have hgt : head.1 < key := lt_of_le_of_ne (not_lt.mp hlt) (Ne.symm heq)
        refine List.pairwise_cons.mpr ⟨fun entry hentry => ?_, ih hrest⟩
        rcases mem_alterEntries hrest hentry with ⟨hold, -⟩ | hnone | ⟨value, -, hsome⟩
        · exact hhead entry hold
        · rw [hnone]
          exact hgt
        · rw [hsome]
          exact hgt

/-- `m[key]` followed by a change of the value found, or of the default made, there. -/
def alter (m : OrdMap Key Value) (key : Key) (change : Option Value → Value) : OrdMap Key Value :=
  ⟨alterEntries key change m.entries, alterEntries_sorted key change m.sorted⟩

/-- The entries a loop takes from the front while their keys are at most `bound`, and the map
without them. -/
def splitLe (m : OrdMap Key Value) (bound : Key) : List (Key × Value) × OrdMap Key Value :=
  (m.entries.takeWhile fun entry => entry.1 ≤ bound,
    ⟨m.entries.dropWhile fun entry => entry.1 ≤ bound,
      m.sorted.sublist (List.dropWhile_sublist _)⟩)

variable {m : OrdMap Key Value} {key bound : Key} {entry : Key × Value}

theorem first_eq_none (hfirst : m.first = none) : m.entries = [] := by
  simpa [first] using hfirst

theorem first_le (hfirst : m.first = some key) (hentry : entry ∈ m.entries) : key ≤ entry.1 := by
  obtain ⟨entries, hsorted⟩ := m
  cases entries with
  | nil => cases hfirst
  | cons head rest =>
      obtain rfl : head.1 = key := Option.some.inj hfirst
      rcases List.mem_cons.mp hentry with rfl | hrest
      · exact le_rfl
      · exact le_of_lt ((List.pairwise_cons.mp hsorted).1 entry hrest)

theorem forall_alter {P : Key × Value → Prop} {change : Option Value → Value}
    (hold : ∀ entry ∈ m.entries, entry.1 ≠ key → P entry) (hnone : P (key, change none))
    (hsome : ∀ value, (key, value) ∈ m.entries → P (key, change (some value))) :
    ∀ entry ∈ (m.alter key change).entries, P entry := by
  intro entry hentry
  rcases mem_alterEntries m.sorted hentry with ⟨hmem, hne⟩ | rfl | ⟨value, hmem, rfl⟩
  · exact hold entry hmem hne
  · exact hnone
  · exact hsome value hmem

theorem mem_splitLe_fst (hentry : entry ∈ (m.splitLe bound).1) :
    entry ∈ m.entries ∧ entry.1 ≤ bound :=
  ⟨(List.takeWhile_sublist _).mem hentry, by simpa using List.mem_takeWhile_imp hentry⟩

theorem mem_splitLe_snd (hentry : entry ∈ (m.splitLe bound).2.entries) :
    entry ∈ m.entries ∧ bound < entry.1 := by
  refine ⟨(List.dropWhile_sublist _).mem hentry, ?_⟩
  obtain ⟨entries, hsorted⟩ := m
  simp only [splitLe] at hentry
  induction entries with
  | nil => cases hentry
  | cons head rest ih =>
      rw [List.dropWhile_cons] at hentry
      split_ifs at hentry with hle
      · exact ih (List.pairwise_cons.mp hsorted).2 hentry
      · have hlt : bound < head.1 := by simpa using hle
        rcases List.mem_cons.mp hentry with rfl | hrest
        · exact hlt
        · exact hlt.trans ((List.pairwise_cons.mp hsorted).1 entry hrest)

/-! ### The value under a key -/

def find (m : OrdMap Key Value) (key : Key) : Option Value := m.entries.lookup key

theorem lookup_cons_of_ne {first : Key} {value : Value} {entries : List (Key × Value)}
    (hne : key ≠ first) : ((first, value) :: entries).lookup key = entries.lookup key := by
  rw [List.lookup_cons, beq_false_of_ne hne]

theorem lookup_eq_none_of_ne {entries : List (Key × Value)} (hne : ∀ entry ∈ entries, key ≠ entry.1) :
    entries.lookup key = none := by
  rw [List.lookup_eq_none_iff]
  intro entry hentry
  simpa using hne entry hentry

theorem lookup_alterEntries {change : Option Value → Value} (other : Key) :
    ∀ {entries : List (Key × Value)}, entries.Pairwise (fun left right => left.1 < right.1) →
      (alterEntries key change entries).lookup other =
        if other = key then some (change (entries.lookup key)) else entries.lookup other := by
  intro entries
  induction entries with
  | nil =>
      intro _
      rw [alterEntries]
      split_ifs with hother
      · rw [hother, List.lookup_cons_self]
        rfl
      · exact lookup_cons_of_ne hother
  | cons head rest ih =>
      obtain ⟨first, value⟩ := head
      intro hsorted
      obtain ⟨hhead, hrest⟩ := List.pairwise_cons.mp hsorted
      rw [alterEntries]
      split_ifs with hlt hother heq hother hother
      · have hnone : ((first, value) :: rest).lookup key = none := by
          apply lookup_eq_none_of_ne
          rw [List.forall_mem_cons]
          exact ⟨ne_of_lt hlt, fun entry hentry => ne_of_lt (hlt.trans (hhead entry hentry))⟩
        rw [hother, List.lookup_cons_self, hnone]
      · exact lookup_cons_of_ne hother
      · rw [hother, heq, List.lookup_cons_self, List.lookup_cons_self]
      · rw [heq] at hother
        rw [lookup_cons_of_ne hother, lookup_cons_of_ne hother]
      · subst hother
        rw [lookup_cons_of_ne heq, lookup_cons_of_ne heq, ih hrest, if_pos rfl]
      · by_cases hfirst : other = first
        · rw [hfirst, List.lookup_cons_self, List.lookup_cons_self]
        · rw [lookup_cons_of_ne hfirst, lookup_cons_of_ne hfirst, ih hrest, if_neg hother]

theorem find_alter (m : OrdMap Key Value) (key other : Key) (change : Option Value → Value) :
    (m.alter key change).find other = if other = key then some (change (m.find key)) else m.find other :=
  lookup_alterEntries other m.sorted

theorem find_of_mem {value : Value} (hentry : (key, value) ∈ m.entries) : m.find key = some value := by
  obtain ⟨entries, hsorted⟩ := m
  simp only [find] at hentry ⊢
  induction entries with
  | nil => cases hentry
  | cons head rest ih =>
      obtain ⟨first, value'⟩ := head
      obtain ⟨hhead, hrest⟩ := List.pairwise_cons.mp hsorted
      rcases List.mem_cons.mp hentry with heq | hmem
      · obtain ⟨rfl, rfl⟩ := Prod.mk.inj heq
        exact List.lookup_cons_self
      · rw [lookup_cons_of_ne (ne_of_gt (hhead _ hmem))]
        exact ih hrest hmem

theorem mem_of_find {value : Value} (hfind : m.find key = some value) : (key, value) ∈ m.entries := by
  obtain ⟨entries, hsorted⟩ := m
  simp only [find] at hfind ⊢
  induction entries with
  | nil => cases hfind
  | cons head rest ih =>
      obtain ⟨first, value'⟩ := head
      by_cases heq : key = first
      · rw [heq, List.lookup_cons_self] at hfind
        rw [heq, Option.some.inj hfind]
        exact List.mem_cons_self
      · rw [lookup_cons_of_ne heq] at hfind
        exact List.mem_cons_of_mem _ (ih (List.pairwise_cons.mp hsorted).2 hfind)

theorem mem_splitLe_of_le (hentry : entry ∈ m.entries) (hle : entry.1 ≤ bound) :
    entry ∈ (m.splitLe bound).1 := by
  rw [← List.takeWhile_append_dropWhile (p := fun entry => entry.1 ≤ bound) (l := m.entries)] at hentry
  refine (List.mem_append.mp hentry).resolve_right fun hmem => ?_
  exact absurd hle (not_le_of_gt (mem_splitLe_snd hmem).2)

theorem find_splitLe (m : OrdMap Key Value) (bound key : Key) :
    (m.splitLe bound).2.find key = if key ≤ bound then none else m.find key := by
  obtain ⟨entries, hsorted⟩ := m
  simp only [splitLe, find]
  induction entries with
  | nil => simp
  | cons head rest ih =>
      obtain ⟨first, value⟩ := head
      obtain ⟨hhead, hrest⟩ := List.pairwise_cons.mp hsorted
      rw [List.dropWhile_cons]
      split_ifs with hfirst hkey hkey
      · rw [ih hrest, if_pos hkey]
      · have hne : key ≠ first := by
          rintro rfl
          exact hkey (by simpa using hfirst)
        rw [ih hrest, if_neg hkey, lookup_cons_of_ne hne]
      · have hlt : key < first := lt_of_le_of_lt hkey (by simpa using hfirst)
        apply lookup_eq_none_of_ne
        rw [List.forall_mem_cons]
        exact ⟨ne_of_lt hlt, fun entry hentry => ne_of_lt (hlt.trans (hhead entry hentry))⟩
      · rfl

end OrdMap

end EasyLib
