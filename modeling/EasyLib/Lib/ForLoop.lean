import EasyLib.Lib.Loop
import EasyLib.Lib.MachineInt
import Mathlib.Data.List.Basic

/-!
# Loops with an `int` counter

`for (int i = 0; i < vec.size(); i++)` compares its counter with the size as a `size_t`. Behind `2 ^ 31 - 1`
the counter wraps around to a negative number, which as a `size_t` is larger than the size of any vector. So
the loop goes over the first `2 ^ 31` elements. The rule for it has an invariant of the elements so far.
-/

namespace EasyLib.Loop

open MachineInt

variable {Elem Acc Result : Type*}

/-- A round, on what the body changes and on the counter. The body goes on (`.inl`) or returns (`.inr`), and
`finish` is what follows behind the loop. -/
def forRound (vec : List Elem) (body : Acc → Int → Elem → Acc ⊕ Result) (finish : Acc → Result) :
    Acc × Int → (Acc × Int) ⊕ Result
  | (acc, i) =>
      match vec[toUInt64 i]? with
      | none => .inr (finish acc)
      | some elem =>
          match body acc i elem with
          | .inl acc => .inl (acc, toInt32 (i + 1))
          | .inr result => .inr result

/-- The loop, with one round for each of the elements and one to leave it. -/
def forLoop (vec : List Elem) (body : Acc → Int → Elem → Acc ⊕ Result) (finish : Acc → Result) (acc : Acc) :
    Option Result :=
  iterate (forRound vec body finish) (vec.length + 1) (acc, 0)

/-- The elements that the counter gets to. -/
def reached (vec : List Elem) : List Elem := vec.take (2 ^ 31)

variable {vec front rest : List Elem} {elem : Elem} {body : Acc → Int → Elem → Acc ⊕ Result}
  {finish : Acc → Result} {acc next : Acc} {result : Result} {rounds : ℕ}

theorem length_reached_le (vec : List Elem) : (reached vec).length ≤ vec.length := by
  rw [reached, List.length_take]
  exact Nat.min_le_right _ _

/-- The counter as an index, with some of the elements behind it. -/
theorem getElem?_counter (hfront : front.length < 2 ^ 31) :
    (front ++ elem :: rest)[toUInt64 (toInt32 front.length)]? = some elem := by
  rw [toUInt64_toInt32 hfront, List.getElem?_append_right le_rfl, Nat.sub_self, List.getElem?_cons_zero]

theorem length_front_lt (h : reached vec = front ++ elem :: rest) : front.length < 2 ^ 31 := by
  have hlen := congrArg List.length h
  rw [reached, List.length_take, List.length_append, List.length_cons] at hlen
  omega

theorem getElem?_reached (h : reached vec = front ++ elem :: rest) :
    vec[toUInt64 (toInt32 front.length)]? = some elem := by
  have hvec : vec = front ++ elem :: (rest ++ vec.drop (2 ^ 31)) := by
    rw [← List.cons_append, ← List.append_assoc, ← h, reached, List.take_append_drop]
  rw [hvec]
  exact getElem?_counter (length_front_lt h)

theorem getElem?_end (hsize : vec.length ≤ 2 ^ 63) :
    vec[toUInt64 (toInt32 (reached vec).length)]? = none := by
  apply List.getElem?_eq_none
  rw [reached, List.length_take]
  rcases Nat.lt_or_ge vec.length (2 ^ 31) with hlt | hge
  · rw [Nat.min_eq_right hlt.le, toUInt64_toInt32 hlt]
  · rw [Nat.min_eq_left hge, toUInt64_toInt32_wrapped]
    omega

theorem forRound_next (h : reached vec = front ++ elem :: rest)
    (hbody : body acc front.length elem = .inl next) :
    forRound vec body finish (acc, toInt32 front.length) = .inl (next, toInt32 (front ++ [elem]).length) := by
  rw [forRound, getElem?_reached h]
  simp only [toInt32_succ]
  rw [toInt32_of_lt (length_front_lt h), hbody, List.length_append, List.length_singleton, Nat.cast_succ]

theorem forRound_return (h : reached vec = front ++ elem :: rest)
    (hbody : body acc front.length elem = .inr result) :
    forRound vec body finish (acc, toInt32 front.length) = .inr result := by
  rw [forRound, getElem?_reached h]
  simp only [toInt32_of_lt (length_front_lt h), hbody]

theorem forRound_end (hsize : vec.length ≤ 2 ^ 63) :
    forRound vec body finish (acc, toInt32 (reached vec).length) = .inr (finish acc) := by
  rw [forRound, getElem?_end hsize]

section Rule

variable (Inv : List Elem → Acc → Prop) (Post : Result → Prop) (hsize : vec.length ≤ 2 ^ 63)
  (hbody : ∀ front elem rest acc, reached vec = front ++ elem :: rest → Inv front acc →
    (body acc front.length elem).elim (Inv (front ++ [elem])) Post)
  (hfinish : ∀ acc, Inv (reached vec) acc → Post (finish acc))

include hsize hbody hfinish

theorem iterate_forRound (rest : List Elem) :
    ∀ front acc rounds, reached vec = front ++ rest → Inv front acc → rest.length < rounds →
      ∃ result, iterate (forRound vec body finish) rounds (acc, toInt32 front.length) = some result ∧
        Post result := by
  induction rest with
  | nil =>
      intro front acc rounds h hinv hrounds
      obtain ⟨rounds, rfl⟩ := Nat.exists_eq_succ_of_ne_zero (Nat.ne_of_gt hrounds)
      rw [List.append_nil] at h
      subst h
      exact ⟨finish acc, iterate_done (forRound_end hsize), hfinish acc hinv⟩
  | cons elem rest ih =>
      intro front acc rounds h hinv hrounds
      obtain ⟨rounds, rfl⟩ := Nat.exists_eq_succ_of_ne_zero (Nat.ne_zero_of_lt hrounds)
      have hkept := hbody front elem rest acc h hinv
      cases hcase : body acc front.length elem with
      | inl next =>
          rw [hcase] at hkept
          have h' : reached vec = front ++ [elem] ++ rest := by
            rw [h, List.append_assoc, List.singleton_append]
          rw [iterate_next (forRound_next h hcase)]
          exact ih (front ++ [elem]) next rounds h' hkept (Nat.lt_of_succ_lt_succ hrounds)
      | inr result =>
          rw [hcase] at hkept
          exact ⟨result, iterate_done (forRound_return h hcase), hkept⟩

/-- **The rule for such a loop.** The body keeps an invariant of the elements in front of the counter, or
returns with what the loop is for; and so does what follows behind the loop. -/
theorem forLoop_rule (hstart : Inv [] acc) :
    ∃ result, forLoop vec body finish acc = some result ∧ Post result :=
  iterate_forRound Inv Post hsize hbody hfinish (reached vec) [] acc (vec.length + 1) rfl hstart
    (Nat.lt_succ_of_le (length_reached_le vec))

end Rule

end EasyLib.Loop
