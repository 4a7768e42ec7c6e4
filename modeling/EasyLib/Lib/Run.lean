import Mathlib.Data.List.Basic
import Mathlib.Data.Option.Basic
import Mathlib.Tactic.Common

/-!
# Runs of a partial step function

A machine is a function `step : State → Label → Option State`: the label names who moves and carries
whatever the environment decides, and `none` says that the step cannot be taken. A run is a list of
labels, so that a statement about every run is a statement about every list.

Two readings of `none` occur. In an interleaving it means that the step is not enabled, and a
property is asked of the states that are reached (`Throughout`). In a sequence of calls it means that
the call does not return normally, and a property is asked of every call returning (`Safe`). For both
there is one induction: an invariant kept by the steps that meet a condition.
-/

namespace EasyLib.Machine

variable {State Label : Type*} (step : State → Label → Option State)

def run : State → List Label → Option State
  | state, [] => some state
  | state, label :: labels => (step state label).bind fun next => run next labels

@[simp]
theorem run_nil (state : State) : run step state [] = some state := rfl

theorem run_cons (state : State) (label : Label) (labels : List Label) :
    run step state (label :: labels) =
      (step state label).bind fun next => run step next labels := rfl

theorem run_append (state : State) (labels more : List Label) :
    run step state (labels ++ more) =
      (run step state labels).bind fun next => run step next more := by
  induction labels generalizing state with
  | nil => rfl
  | cons label labels ih =>
      rw [List.cons_append, run_cons, run_cons, Option.bind_assoc]
      congr 1
      funext next
      exact ih next

theorem run_map {Other : Type*} (rename : Other → Label) (state : State) (labels : List Other) :
    run step state (labels.map rename) =
      run (fun state label => step state (rename label)) state labels := by
  induction labels generalizing state with
  | nil => rfl
  | cons label labels ih =>
      rw [List.map_cons, run_cons, run_cons]
      congr 1
      funext next
      exact ih next

def Enabled (state : State) (label : Label) : Prop := (step state label).isSome

instance (state : State) (label : Label) : Decidable (Enabled step state label) :=
  inferInstanceAs (Decidable ((step state label).isSome))

/-- Every step of the run meets `ok`, a condition on the state it is taken in and on its label. -/
def AllSteps (ok : State → Label → Prop) : State → List Label → Prop
  | _, [] => True
  | state, label :: labels => ok state label ∧ ∀ next ∈ step state label, AllSteps ok next labels

/-- `holds` in every state the run passes through, the first one included. -/
def Throughout (holds : State → Prop) : State → List Label → Prop
  | state, [] => holds state
  | state, label :: labels =>
      holds state ∧ ∀ next ∈ step state label, Throughout holds next labels

/-- Every call of the run returns, and `holds` before the first call and after each one. -/
def Safe (holds : State → Prop) : State → List Label → Prop
  | state, [] => holds state
  | state, label :: labels =>
      holds state ∧ ∃ next ∈ step state label, Safe holds next labels

/-- Every step of the run meets `ok` and can be taken, and `post` holds at the end. -/
def Completes (ok : State → Label → Prop) (post : State → Prop) : State → List Label → Prop
  | state, [] => post state
  | state, label :: labels =>
      ok state label ∧ ∃ next ∈ step state label, Completes ok post next labels

/-- Every call of the run returns and does what `Spec` says, to the state and to an abstract one that
represents it all along. -/
def Simulates {Abstract : Type*} (Represents : State → Abstract → Prop)
    (Spec : State → Abstract → Label → State → Abstract → Prop) :
    State → Abstract → List Label → Prop
  | state, abstract, [] => Represents state abstract
  | state, abstract, label :: labels =>
      Represents state abstract ∧ ∃ next ∈ step state label, ∃ abstract',
        Spec state abstract label next abstract' ∧ Simulates Represents Spec next abstract' labels

instance decidableAllSteps (ok : State → Label → Prop) [∀ state label, Decidable (ok state label)] :
    ∀ (state : State) (labels : List Label), Decidable (AllSteps step ok state labels)
  | _, [] => inferInstanceAs (Decidable True)
  | state, label :: labels =>
      have := fun next => decidableAllSteps ok next labels
      inferInstanceAs (Decidable (ok state label ∧
        ∀ next ∈ step state label, AllSteps step ok next labels))

instance decidableSafe (holds : State → Prop) [∀ state, Decidable (holds state)] :
    ∀ (state : State) (labels : List Label), Decidable (Safe step holds state labels)
  | state, [] => inferInstanceAs (Decidable (holds state))
  | state, label :: labels =>
      have := fun next => decidableSafe holds next labels
      inferInstanceAs (Decidable (holds state ∧
        ∃ next ∈ step state label, Safe step holds next labels))

section Rules

variable {step} {ok admissible : State → Label → Prop} {holds Inv : State → Prop}

/-- **The invariant rule.** An invariant that every step meeting `ok` keeps holds at the end of every
run whose steps all meet `ok`. -/
theorem run_invariant (Inv : State → Prop)
    (hstep : ∀ state label next, Inv state → ok state label → step state label = some next →
      Inv next) :
    ∀ (labels : List Label) (state last : State), Inv state → AllSteps step ok state labels →
      run step state labels = some last → Inv last := by
  intro labels
  induction labels with
  | nil =>
      intro state last hinv _ hrun
      rw [run_nil, Option.some.injEq] at hrun
      exact hrun ▸ hinv
  | cons label labels ih =>
      intro state last hinv hall hrun
      rw [run_cons, Option.bind_eq_some_iff] at hrun
      obtain ⟨next, hnext, hrest⟩ := hrun
      exact ih next last (hstep state label next hinv hall.1 hnext) (hall.2 next hnext) hrest

/-- **The refinement rule.** When every step meeting `ok` does to the abstract state what `spec` says,
a whole run does what folding `spec` says. -/
theorem run_refines {Abstract : Type*} {abstraction : State → Abstract}
    {spec : Abstract → Label → Abstract}
    (hstep : ∀ state label next, Inv state → ok state label → step state label = some next →
      Inv next ∧ abstraction next = spec (abstraction state) label) :
    ∀ (labels : List Label) (state last : State), Inv state → AllSteps step ok state labels →
      run step state labels = some last →
      Inv last ∧ abstraction last = labels.foldl spec (abstraction state) := by
  intro labels
  induction labels with
  | nil =>
      intro state last hinv _ hrun
      rw [run_nil, Option.some.injEq] at hrun
      exact hrun ▸ ⟨hinv, rfl⟩
  | cons label labels ih =>
      intro state last hinv hall hrun
      rw [run_cons, Option.bind_eq_some_iff] at hrun
      obtain ⟨next, hnext, hrest⟩ := hrun
      obtain ⟨hinv', habs⟩ := hstep state label next hinv hall.1 hnext
      rw [List.foldl_cons, ← habs]
      exact ih next last hinv' (hall.2 next hnext) hrest

theorem run_concat {state next last : State} {labels : List Label} {label : Label}
    (hrun : run step state labels = some next) (hlast : step next label = some last) :
    run step state (labels ++ [label]) = some last := by
  rw [run_append, hrun, Option.bind_some, run_cons, hlast]
  rfl

theorem allSteps_of_forall (hok : ∀ state label, ok state label) :
    ∀ (state : State) (labels : List Label), AllSteps step ok state labels
  | _, [] => trivial
  | state, label :: labels => ⟨hok state label, fun next _ => allSteps_of_forall hok next labels⟩

theorem allSteps_of_forall_mem {ok : Label → Prop} {labels : List Label}
    (hok : ∀ label ∈ labels, ok label) (state : State) :
    AllSteps step (fun _ label => ok label) state labels := by
  induction labels generalizing state with
  | nil => trivial
  | cons label labels ih =>
      obtain ⟨hlabel, hrest⟩ := List.forall_mem_cons.mp hok
      exact ⟨hlabel, fun next _ => ih hrest next⟩

theorem allSteps_append {state : State} {labels more : List Label} :
    AllSteps step ok state (labels ++ more) ↔
      AllSteps step ok state labels ∧
        ∀ last ∈ run step state labels, AllSteps step ok last more := by
  induction labels generalizing state with
  | nil => simp [AllSteps]
  | cons label labels ih =>
      simp only [List.cons_append, AllSteps, ih, run_cons, Option.mem_def, Option.bind_eq_some_iff]
      constructor
      · rintro ⟨hok, hrest⟩
        refine ⟨⟨hok, fun next hnext => (hrest next hnext).1⟩, ?_⟩
        rintro last ⟨next, hnext, hlast⟩
        exact (hrest next hnext).2 last hlast
      · rintro ⟨⟨hok, hrest⟩, hmore⟩
        exact ⟨hok, fun next hnext => ⟨hrest next hnext, fun last hlast =>
          hmore last ⟨next, hnext, hlast⟩⟩⟩

theorem run_erase {Whole : Type*} {whole : Whole → Label → Option Whole} (erase : Whole → State)
    (hstep : ∀ state label, (whole state label).map erase = step (erase state) label)
    (state : Whole) (labels : List Label) :
    (run whole state labels).map erase = run step (erase state) labels := by
  induction labels generalizing state with
  | nil => rfl
  | cons label labels ih =>
      rw [run_cons, run_cons, ← hstep, Option.map_bind, Option.bind_map]
      congr 1
      funext next
      exact ih next

/-- **Erasure.** A condition on the part of the state that a machine steps by itself can be read off
that machine. -/
theorem allSteps_erase {Whole : Type*} {whole : Whole → Label → Option Whole} (erase : Whole → State)
    (hstep : ∀ state label, (whole state label).map erase = step (erase state) label)
    (state : Whole) {labels : List Label} :
    AllSteps whole (fun state => ok (erase state)) state labels ↔
      AllSteps step ok (erase state) labels := by
  induction labels generalizing state with
  | nil => rfl
  | cons label labels ih =>
      simp only [AllSteps, ← hstep, Option.mem_def, Option.map_eq_some_iff, ih]
      constructor
      · rintro ⟨hok, hrest⟩
        refine ⟨hok, ?_⟩
        rintro _ ⟨next, hnext, rfl⟩
        exact hrest next hnext
      · rintro ⟨hok, hrest⟩
        exact ⟨hok, fun next hnext => hrest _ ⟨next, hnext, rfl⟩⟩

/-- Two conditions that agree under an invariant are met by the same runs. -/
theorem allSteps_congr {ok' : State → Label → Prop} (Inv : State → Prop)
    (hiff : ∀ state label, Inv state → (ok state label ↔ ok' state label))
    (hstep : ∀ state label next, Inv state → ok' state label → step state label = some next →
      Inv next)
    {state : State} (hinv : Inv state) {labels : List Label} :
    AllSteps step ok state labels ↔ AllSteps step ok' state labels := by
  induction labels generalizing state with
  | nil => rfl
  | cons label labels ih =>
      simp only [AllSteps]
      rw [hiff state label hinv]
      refine and_congr_right fun hok => forall₂_congr fun next hnext => ?_
      exact ih (hstep state label next hinv hok hnext)

theorem run_invariant_of_forall
    (hstep : ∀ state label next, Inv state → step state label = some next → Inv next)
    {labels : List Label} {state last : State} (hinv : Inv state)
    (hrun : run step state labels = some last) : Inv last := by
  have hall : AllSteps step (fun _ _ => True) state labels :=
    allSteps_of_forall (fun _ _ => trivial) state labels
  exact run_invariant Inv (fun state label next h _ => hstep state label next h) labels state last
    hinv hall hrun

/-- **The rule of answers.** When every step is answered by some steps of another machine, or by none, such
that a relation is kept, so is every run. -/
theorem run_answered {Other Answer : Type*} {answer : Other → Answer → Option Other}
    (Rel : State → Other → Prop)
    (hstep : ∀ state other label next, Rel state other → step state label = some next →
      ∃ answers other', run answer other answers = some other' ∧ Rel next other')
    {labels : List Label} {state last : State} {other : Other} (hrel : Rel state other)
    (hrun : run step state labels = some last) :
    ∃ answers other', run answer other answers = some other' ∧ Rel last other' := by
  induction labels generalizing state other with
  | nil =>
      rw [run_nil, Option.some.injEq] at hrun
      exact ⟨[], other, rfl, hrun ▸ hrel⟩
  | cons label labels ih =>
      rw [run_cons, Option.bind_eq_some_iff] at hrun
      obtain ⟨next, hnext, hrest⟩ := hrun
      obtain ⟨answers, between, hanswers, hrel'⟩ := hstep state other label next hrel hnext
      obtain ⟨more, other', hmore, hlast⟩ := ih hrel' hrest
      refine ⟨answers ++ more, other', ?_, hlast⟩
      rw [run_append, hanswers, Option.bind_some, hmore]

theorem throughout_of_allSteps (Inv : State → Prop) (hholds : ∀ state, Inv state → holds state)
    (hstep : ∀ state label next, Inv state → ok state label → step state label = some next →
      Inv next) :
    ∀ (labels : List Label) (state : State), Inv state → AllSteps step ok state labels →
      Throughout step holds state labels := by
  intro labels
  induction labels with
  | nil =>
      intro state hinv _
      exact hholds state hinv
  | cons label labels ih =>
      intro state hinv hall
      refine ⟨hholds state hinv, fun next hnext => ?_⟩
      exact ih next (hstep state label next hinv hall.1 hnext) (hall.2 next hnext)

theorem Throughout.head {state : State} {labels : List Label}
    (h : Throughout step holds state labels) : holds state := by
  cases labels with
  | nil => exact h
  | cons _ _ => exact h.1

/-- When every step that does not meet `ok` can be taken and leaves a state where `holds` fails, the
runs through states where it holds meet `ok` in every step. -/
theorem allSteps_of_throughout (Inv : State → Prop)
    (hstep : ∀ state label next, Inv state → step state label = some next → Inv next)
    (hbad : ∀ state label, Inv state → ¬ ok state label →
      ∃ next ∈ step state label, ¬ holds next) :
    ∀ (labels : List Label) (state : State), Inv state → Throughout step holds state labels →
      AllSteps step ok state labels := by
  intro labels
  induction labels with
  | nil => exact fun _ _ _ => trivial
  | cons label labels ih =>
      intro state hinv hall
      refine ⟨?_, fun next hnext => ih next (hstep state label next hinv hnext) (hall.2 next hnext)⟩
      by_contra hnot
      obtain ⟨next, hnext, hfails⟩ := hbad state label hinv hnot
      exact hfails (hall.2 next hnext).head

theorem throughout_of_forall (Inv : State → Prop) (hholds : ∀ state, Inv state → holds state)
    (hstep : ∀ state label next, Inv state → step state label = some next → Inv next)
    (labels : List Label) {state : State} (hinv : Inv state) :
    Throughout step holds state labels := by
  have hall : AllSteps step (fun _ _ => True) state labels :=
    allSteps_of_forall (fun _ _ => trivial) state labels
  exact throughout_of_allSteps Inv hholds (fun state label next h _ => hstep state label next h) labels
    state hinv hall

/-- **The simulation rule.** When every call meeting `ok` returns and does what `Spec` says to what an
invariant relates, so does every sequence of such calls. -/
theorem simulates_of_forall {Abstract : Type*} {Represents : State → Abstract → Prop}
    {Spec : State → Abstract → Label → State → Abstract → Prop} {ok : Label → Prop}
    (Inv : State → Abstract → Prop)
    (hrepresents : ∀ state abstract, Inv state abstract → Represents state abstract)
    (hstep : ∀ state abstract label, Inv state abstract → ok label → ∃ next ∈ step state label,
      ∃ abstract', Spec state abstract label next abstract' ∧ Inv next abstract') :
    ∀ (labels : List Label) (state : State) (abstract : Abstract), Inv state abstract →
      (∀ label ∈ labels, ok label) → Simulates step Represents Spec state abstract labels := by
  intro labels
  induction labels with
  | nil =>
      intro state abstract hinv _
      exact hrepresents state abstract hinv
  | cons label labels ih =>
      intro state abstract hinv hall
      obtain ⟨hok, hrest⟩ := List.forall_mem_cons.mp hall
      obtain ⟨next, hnext, abstract', hspec, hinv'⟩ := hstep state abstract label hinv hok
      exact ⟨hrepresents state abstract hinv, next, hnext, abstract', hspec,
        ih next abstract' hinv' hrest⟩

theorem Completes.allSteps {post : State → Prop} {state : State} {labels : List Label}
    (h : Completes step ok post state labels) : AllSteps step ok state labels := by
  induction labels generalizing state with
  | nil => trivial
  | cons label labels ih =>
      obtain ⟨hok, next, hnext, hrest⟩ := h
      refine ⟨hok, fun other hother => ?_⟩
      obtain rfl : other = next := Option.mem_unique hother hnext
      exact ih hrest

theorem Completes.append_of_run {middle post : State → Prop} {state next : State}
    {labels more : List Label} (h : Completes step ok middle state labels)
    (hrun : next ∈ run step state labels) (hmore : Completes step ok post next more) :
    Completes step ok post state (labels ++ more) := by
  induction labels generalizing state with
  | nil =>
      obtain rfl := Option.some.inj hrun
      exact hmore
  | cons label labels ih =>
      obtain ⟨hok, reached, hreached, hrest⟩ := h
      rw [run_cons, Option.mem_def.mp hreached] at hrun
      exact ⟨hok, reached, hreached, ih hrest hrun⟩

theorem Completes.run {post : State → Prop} {state : State} {labels : List Label}
    (h : Completes step ok post state labels) : ∃ last ∈ run step state labels, post last := by
  induction labels generalizing state with
  | nil => exact ⟨state, rfl, h⟩
  | cons label labels ih =>
      obtain ⟨-, next, hnext, hrest⟩ := h
      obtain ⟨last, hlast, hpost⟩ := ih hrest
      exact ⟨last, Option.mem_bind_iff.mpr ⟨next, hnext, hlast⟩, hpost⟩

/-- **The rule of sequence.** -/
theorem Completes.append {middle post : State → Prop} {state : State} {labels more : List Label}
    (h : Completes step ok middle state labels)
    (hmore : ∀ next, middle next → Completes step ok post next more) :
    Completes step ok post state (labels ++ more) := by
  induction labels generalizing state with
  | nil => exact hmore state h
  | cons label labels ih =>
      obtain ⟨hok, next, hnext, hrest⟩ := h
      exact ⟨hok, next, hnext, ih hrest⟩

theorem completes_of_forall (Inv : State → Prop) {labels : List Label}
    (hstep : ∀ state, ∀ label ∈ labels, Inv state →
      ok state label ∧ ∃ next ∈ step state label, Inv next)
    {state : State} (hinv : Inv state) : Completes step ok Inv state labels := by
  induction labels generalizing state with
  | nil => exact hinv
  | cons label labels ih =>
      obtain ⟨hok, next, hnext, hinv'⟩ := hstep state label List.mem_cons_self hinv
      refine ⟨hok, next, hnext, ih (fun state label hlabel => ?_) hinv'⟩
      exact hstep state label (List.mem_cons_of_mem _ hlabel)

theorem Safe.head {state : State} {labels : List Label} (h : Safe step holds state labels) :
    holds state := by
  cases labels with
  | nil => exact h
  | cons _ _ => exact h.1

/-- When the calls meeting `ok` return and keep the invariant, a sequence of such calls is safe. -/
theorem safe_of_allSteps (Inv : State → Prop) (hholds : ∀ state, Inv state → holds state)
    (hgood : ∀ state label, Inv state → admissible state label → ok state label →
      ∃ next ∈ step state label, Inv next) :
    ∀ (labels : List Label) (state : State), Inv state →
      AllSteps step admissible state labels → AllSteps step ok state labels →
      Safe step holds state labels := by
  intro labels
  induction labels with
  | nil =>
      intro state hinv _ _
      exact hholds state hinv
  | cons label labels ih =>
      intro state hinv hadmissible hall
      obtain ⟨next, hnext, hinv'⟩ := hgood state label hinv hadmissible.1 hall.1
      exact ⟨hholds state hinv, next, hnext,
        ih next hinv' (hadmissible.2 next hnext) (hall.2 next hnext)⟩

/-- **Exactly the safe sequences.** When the calls meeting `ok` return and keep the invariant, and
any other admissible call leaves a state where `holds` fails or does not return, a sequence is safe
if and only if all its calls meet `ok`. -/
theorem safe_iff_allSteps (Inv : State → Prop) (hholds : ∀ state, Inv state → holds state)
    (hgood : ∀ state label, Inv state → admissible state label → ok state label →
      ∃ next ∈ step state label, Inv next)
    (hbad : ∀ state label, Inv state → admissible state label → ¬ ok state label →
      ∀ next ∈ step state label, ¬ holds next) :
    ∀ (labels : List Label) (state : State), Inv state →
      AllSteps step admissible state labels →
      (Safe step holds state labels ↔ AllSteps step ok state labels) := by
  intro labels
  induction labels with
  | nil =>
      intro state hinv _
      exact iff_of_true (hholds state hinv) trivial
  | cons label labels ih =>
      intro state hinv hadmissible
      constructor
      · rintro ⟨-, next, hnext, hsafe⟩
        have hok : ok state label := by
          by_contra hnot
          exact hbad state label hinv hadmissible.1 hnot next hnext hsafe.head
        obtain ⟨next', hnext', hinv'⟩ := hgood state label hinv hadmissible.1 hok
        obtain rfl : next' = next := Option.mem_unique hnext' hnext
        refine ⟨hok, fun other hother => ?_⟩
        obtain rfl : other = next' := Option.mem_unique hother hnext
        exact (ih other hinv' (hadmissible.2 other hother)).mp hsafe
      · exact safe_of_allSteps Inv hholds hgood (label :: labels) state hinv hadmissible

/-- The rule for an interleaving, where the admissible steps are enabled ones. -/
theorem safe_iff_allSteps_of_enabled (Inv : State → Prop) (hholds : ∀ state, Inv state → holds state)
    (henabled : ∀ state label, admissible state label → Enabled step state label)
    (hgood : ∀ state label next, Inv state → admissible state label → ok state label →
      step state label = some next → Inv next)
    (hbad : ∀ state label next, Inv state → ¬ ok state label → step state label = some next →
      ¬ holds next) (labels : List Label) (state : State) (hinv : Inv state)
    (hadmissible : AllSteps step admissible state labels) :
    Safe step holds state labels ↔ AllSteps step ok state labels := by
  apply safe_iff_allSteps Inv hholds _ _ labels state hinv hadmissible
  · intro state label hinv hadmissible hok
    obtain ⟨next, hnext⟩ := Option.isSome_iff_exists.mp (henabled state label hadmissible)
    exact ⟨next, hnext, hgood state label next hinv hadmissible hok hnext⟩
  · intro state label hinv _ hnot next hnext
    exact hbad state label next hinv hnot hnext

end Rules

end EasyLib.Machine
