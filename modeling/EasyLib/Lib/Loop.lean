import Mathlib.Data.Nat.Notation
import Mathlib.Tactic.Common

/-!
# Loops

The loop of a sequential program is a function of its variables: a round either hands on the state for the
next one (`.inl`), or leaves the loop with a result (`.inr`). It runs for as many rounds as it takes, so
what it computes is said of some number of rounds, and that it goes on for ever is said of all of them.
-/

namespace EasyLib.Loop

variable {State Result : Type*} (round : State → State ⊕ Result)

/-- The loop, cut off after a number of rounds. -/
def iterate : ℕ → State → Option Result
  | 0, _ => none
  | rounds + 1, state =>
      match round state with
      | .inl next => iterate rounds next
      | .inr result => some result

/-- A round that goes on with a value, or leaves the loop with an exception where there is none. -/
def attempt {Value : Type*} (value : Option Value) (next : Value → State) : State ⊕ Option Result :=
  match value with
  | some value => .inl (next value)
  | none => .inr none

def Halts (state : State) : Prop := ∃ rounds result, iterate round rounds state = some result

variable {round} {state next : State} {result : Result} {rounds : ℕ}

theorem iterate_next (h : round state = .inl next) :
    iterate round (rounds + 1) state = iterate round rounds next := by
  rw [iterate, h]

theorem iterate_done (h : round state = .inr result) :
    iterate round (rounds + 1) state = some result := by
  rw [iterate, h]

theorem halts_next_iff (h : round state = .inl next) : Halts round state ↔ Halts round next := by
  constructor
  · rintro ⟨rounds, result, hiterate⟩
    cases rounds with
    | zero => cases hiterate
    | succ rounds => exact ⟨rounds, result, (iterate_next h).symm.trans hiterate⟩
  · rintro ⟨rounds, result, hiterate⟩
    exact ⟨rounds + 1, result, (iterate_next h).trans hiterate⟩

theorem halts_of_done (h : round state = .inr result) : Halts round state :=
  ⟨1, result, iterate_done h⟩

/-- **The rule for loops that end.** The rounds keep an invariant and make a measure smaller, so there are
no more rounds than the measure says, and the last one gives the result its property. -/
theorem iterate_of_measure (Inv : State → Prop) (Post : Result → Prop) (measure : State → ℕ)
    (hnext : ∀ state next, Inv state → round state = .inl next →
      Inv next ∧ measure next < measure state)
    (hdone : ∀ state result, Inv state → round state = .inr result → Post result) :
    ∀ rounds state, Inv state → measure state < rounds →
      ∃ result, iterate round rounds state = some result ∧ Post result := by
  intro rounds
  induction rounds with
  | zero =>
      intro state _ hlt
      exact absurd hlt (Nat.not_lt_zero _)
  | succ rounds ih =>
      intro state hinv hlt
      cases hround : round state with
      | inl next =>
          obtain ⟨hinv', hless⟩ := hnext state next hinv hround
          rw [iterate_next hround]
          exact ih next hinv' (Nat.lt_of_lt_of_le hless (Nat.le_of_lt_succ hlt))
      | inr result => exact ⟨result, iterate_done hround, hdone state result hinv hround⟩

theorem halts_of_measure (Inv : State → Prop) (measure : State → ℕ)
    (hnext : ∀ state next, Inv state → round state = .inl next →
      Inv next ∧ measure next < measure state) (hinv : Inv state) : Halts round state := by
  obtain ⟨result, hiterate, -⟩ := iterate_of_measure Inv (fun _ => True) measure hnext
    (fun _ _ _ _ => trivial) (measure state + 1) state hinv (Nat.lt_succ_self _)
  exact ⟨measure state + 1, result, hiterate⟩

/-- **The rule for loops that go on.** Where the invariant holds there is another round, which keeps it. -/
theorem not_halts_of_invariant (Inv : State → Prop)
    (hnext : ∀ state, Inv state → ∃ next, round state = .inl next ∧ Inv next) (hinv : Inv state) :
    ¬ Halts round state := by
  rintro ⟨rounds, result, hiterate⟩
  induction rounds generalizing state with
  | zero => cases hiterate
  | succ rounds ih =>
      obtain ⟨next, hround, hinv'⟩ := hnext state hinv
      rw [iterate_next hround] at hiterate
      exact ih hinv' hiterate

end EasyLib.Loop
