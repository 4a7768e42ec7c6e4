import EasyLib.Common.SpinLock
import EasyLib.Lib.Counting

/-!
# The spin lock excludes

Each counter is the number of threads in a region of the code, so the values a thread reads say where
the others are. A thread that finds `m_nNumEnterThread` at zero is alone and need not look at
`m_bLocked`; any other takes the lock by raising `m_bLocked` from zero. The two ways meet in one
place: a thread on the fast path owns the lock before it has raised `m_bLocked`. What keeps the others
out then is the comparison of the two other counters. The fast thread is among those that have
entered and not among those that wait, and while it is there nobody who has entered leaves for good,
so even a stale value of `m_nNumWaitThread` stays below `m_nNumEnterThread`.
-/

namespace EasyLib.Common.SpinLock

open MachineInt Counting

/-! ### The regions -/

@[simp]
def inEnter : Place → ℕ
  | .lockFast | .lockWait | .readLocked _ | .readWait _ | .readEnter _ _ | .lockUnwait | .lockTake
  | .lockBack | .tryLeave | .holding => 1
  | _ => 0

@[simp]
def inWait : Place → ℕ
  | .readLocked _ | .readWait _ | .readEnter _ _ | .lockUnwait => 1
  | _ => 0

@[simp]
def inLocked : Place → ℕ
  | .lockBack | .tryEnter | .tryLeave | .tryBack | .holding | .unlockRelease => 1
  | _ => 0

@[simp]
def fast : Place → ℕ
  | .lockFast => 1
  | _ => 0

@[simp]
def holds : Place → ℕ
  | .holding => 1
  | _ => 0

@[simp]
def owns (place : Place) : ℕ := fast place + holds place

@[simp]
def passed : Place → ℕ
  | .lockUnwait | .lockTake | .lockBack => 1
  | _ => 0

@[simp]
def stays : Place → ℕ
  | .tryLeave => 0
  | place => inEnter place

theorem inEnter_le_one (place : Place) : inEnter place ≤ 1 := by cases place <;> simp

theorem inWait_le_one (place : Place) : inWait place ≤ 1 := by cases place <;> simp

theorem inLocked_le_one (place : Place) : inLocked place ≤ 1 := by cases place <;> simp

theorem owns_le_stays (place : Place) : owns place ≤ stays place := by cases place <;> simp

theorem stays_le_inEnter (place : Place) : stays place ≤ inEnter place := by cases place <;> simp

theorem passed_le_stays (place : Place) : passed place ≤ stays place := by cases place <;> simp

theorem inWait_add_fast_le_stays (place : Place) : inWait place + fast place ≤ stays place := by
  cases place <;> simp

theorem holds_le_inLocked (place : Place) : holds place ≤ inLocked place := by cases place <;> simp

/-! ### The invariant -/

variable {Thread : Type*} [Fintype Thread]

structure Inv (s : State Thread) : Prop where
  enter : s.enter = total inEnter s.place
  wait : s.wait = total inWait s.place
  locked : s.locked = total inLocked s.place
  owner : total owns s.place ≤ 1
  -- nobody gets past the waiting loop while a thread is on the fast path
  passed : 0 < total fast s.place → total passed s.place = 0
  stale : ∀ thread loop wait, s.place thread = .readEnter loop wait → 0 < total fast s.place →
    wait < total stays s.place

theorem init_inv : Inv (init Thread) := by
  have hidle : ∀ weight : Place → ℕ, weight .idle = 0 → total weight (init Thread).place = 0 :=
    fun weight hzero => total_eq_zero fun _ => hzero
  constructor
  · rw [hidle inEnter rfl]
    rfl
  · rw [hidle inWait rfl]
    rfl
  · rw [hidle inLocked rfl]
    rfl
  · rw [hidle owns rfl]
    exact Nat.zero_le 1
  · intro _
    exact hidle _ rfl
  · intro thread loop wait hplace
    cases hplace

variable {s next : State Thread} {thread : Thread} {place : Place}

/-! ### The counters do not wrap -/

theorem inc_eq {weight : Place → ℕ} {counter : Int} (hcard : Fintype.card Thread < 2 ^ 31)
    (hle : ∀ place, weight place ≤ 1) (hcounter : counter = total weight s.place)
    (hzero : weight (s.place thread) = 0) : inc counter = counter + 1 := by
  have hlt := total_lt_card hle hzero
  have hnat : counter + 1 = ((total weight s.place + 1 : ℕ) : Int) := by omega
  rw [inc, hnat, toInt32_of_lt (by omega)]

theorem dec_eq {weight : Place → ℕ} {counter : Int} (hcard : Fintype.card Thread < 2 ^ 31)
    (hle : ∀ place, weight place ≤ 1) (hcounter : counter = total weight s.place)
    (hone : weight (s.place thread) = 1) : dec counter = counter - 1 := by
  have hpos := weight_le_total weight s.place thread
  have hcount := total_le_card hle s.place
  have hnat : counter - 1 = ((total weight s.place - 1 : ℕ) : Int) := by omega
  rw [dec, hnat, toInt32_of_lt (by omega)]

theorem total_owns (s : State Thread) :
    total owns s.place = total fast s.place + total holds s.place :=
  total_add fast holds s.place

theorem Inv.total_inEnter_eq_zero (h : Inv s) (hzero : s.enter = 0) : total inEnter s.place = 0 := by
  have := h.enter
  omega

theorem total_owns_eq_zero (hzero : total inEnter s.place = 0) : total owns s.place = 0 := by
  have hstays : total owns s.place ≤ total stays s.place := total_mono owns_le_stays
  have henter : total stays s.place ≤ total inEnter s.place := total_mono stays_le_inEnter
  omega

theorem Inv.total_fast_of_passed (h : Inv s) (hpassed : SpinLock.passed (s.place thread) = 1) :
    total fast s.place = 0 := by
  by_contra hfast
  have hle := weight_le_total SpinLock.passed s.place thread
  rw [hpassed, h.passed (Nat.pos_of_ne_zero hfast)] at hle
  cases hle

theorem Inv.total_fast_of_holding (h : Inv s) (hplace : s.place thread = .holding) :
    total fast s.place = 0 := by
  have hholds : holds (s.place thread) ≤ total holds s.place := weight_le_total holds s.place thread
  rw [hplace] at hholds
  have howns := total_owns s
  have howner := h.owner
  simp only [holds] at hholds
  omega

/-- Who raises `m_bLocked` from zero on the slow path is the only owner: a thread on the fast path
would have kept it waiting, and a holder has raised `m_bLocked` already. -/
theorem Inv.total_owns_of_lockTake (h : Inv s) (hplace : s.place thread = .lockTake)
    (hzero : s.locked = 0) : total owns s.place = 0 := by
  have hslow : total fast s.place = 0 := h.total_fast_of_passed (congrArg SpinLock.passed hplace)
  have hholds : total holds s.place ≤ total inLocked s.place := total_mono holds_le_inLocked
  have hlocked := h.locked
  have howns := total_owns s
  omega

/-! ### One step -/

variable [DecidableEq Thread]

/-- A thread that is not about to take the fast path moves on: the counters follow it, and nobody
gets past the waiting loop or leaves for good while another thread is on the fast path. -/
theorem Inv.goto {enter wait locked : Int} (h : Inv s)
    (henter : enter + inEnter (s.place thread) = s.enter + inEnter place)
    (hwait : wait + inWait (s.place thread) = s.wait + inWait place)
    (hlocked : locked + inLocked (s.place thread) = s.locked + inLocked place)
    (howner : total owns s.place + owns place ≤ 1 + owns (s.place thread))
    (hfast : fast place ≤ fast (s.place thread))
    (hpassed : 0 < total fast s.place → SpinLock.passed place = 0)
    (hstays : 0 < total fast s.place → stays (s.place thread) ≤ stays place)
    (hstale : ∀ loop value, place = .readEnter loop value → 0 < total fast s.place →
      value < total stays s.place) :
    Inv ({ s with enter, wait, locked }.goto thread place) := by
  have hmove := fun weight => total_update_add weight s.place thread place
  have hslow : 0 < total fast (Function.update s.place thread place) → 0 < total fast s.place := by
    have := hmove fast
    omega
  constructor
  · have := hmove inEnter
    have := h.enter
    simp only [State.goto]
    omega
  · have := hmove inWait
    have := h.wait
    simp only [State.goto]
    omega
  · have := hmove inLocked
    have := h.locked
    simp only [State.goto]
    omega
  · have := hmove owns
    simp only [State.goto]
    omega
  · intro hfast'
    have := hmove SpinLock.passed
    have := hpassed (hslow hfast')
    have := h.passed (hslow hfast')
    simp only [State.goto]
    omega
  · intro other loop value hplace hfast'
    have hstays' := hmove stays
    have hle := hstays (hslow hfast')
    have hlt : value < total stays s.place := by
      simp only [State.goto] at hplace
      by_cases heq : other = thread
      · rw [heq, Function.update_self] at hplace
        exact hstale loop value hplace (hslow hfast')
      · rw [Function.update_of_ne heq] at hplace
        exact h.stale other loop value hplace (hslow hfast')
    simp only [State.goto]
    omega

/-- The moves that need no look at the other threads: the thread does not become an owner, does not
get past the waiting loop and does not leave for good. -/
structure Plain (place next : Place) : Prop where
  owns_le : owns next ≤ owns place
  fast_le : fast next ≤ fast place
  passed_eq : SpinLock.passed next = 0
  stays_le : stays place ≤ stays next
  ne_readEnter : ∀ loop value, next ≠ .readEnter loop value

variable {old : Place} {enter wait locked : Int}

theorem Inv.goto_plain (h : Inv s) (hplace : s.place thread = old) (hplain : Plain old place)
    (henter : enter + inEnter old = s.enter + inEnter place)
    (hwait : wait + inWait old = s.wait + inWait place)
    (hlocked : locked + inLocked old = s.locked + inLocked place) :
    Inv ({ s with enter, wait, locked }.goto thread place) := by
  subst hplace
  apply h.goto henter hwait hlocked
  · have howner := h.owner
    have howns := hplain.owns_le
    omega
  · exact hplain.fast_le
  · intro _
    exact hplain.passed_eq
  · intro _
    exact hplain.stays_le
  · intro loop value heq
    exact absurd heq (hplain.ne_readEnter loop value)

/-- With nobody on the fast path only the number of owners is left to look at. -/
theorem Inv.goto_slow (h : Inv s) (hplace : s.place thread = old) (hslow : total fast s.place = 0)
    (hfast : fast place = 0) (howner : total owns s.place + owns place ≤ 1 + owns old)
    (henter : enter + inEnter old = s.enter + inEnter place)
    (hwait : wait + inWait old = s.wait + inWait place)
    (hlocked : locked + inLocked old = s.locked + inLocked place) :
    Inv ({ s with enter, wait, locked }.goto thread place) := by
  subst hplace
  have hnot : ¬ 0 < total fast s.place := by omega
  apply h.goto henter hwait hlocked howner
  · omega
  · intro hpos
    exact absurd hpos hnot
  · intro hpos
    exact absurd hpos hnot
  · intro _ _ _ hpos
    exact absurd hpos hnot

/-- The thread becomes the owner when there is none. -/
theorem Inv.goto_holding (h : Inv s) (hplace : s.place thread = old) (hnone : total owns s.place = 0)
    (henter : enter + inEnter old = s.enter + 1) (hwait : wait + inWait old = s.wait)
    (hlocked : locked + inLocked old = s.locked + 1) :
    Inv ({ s with enter, wait, locked }.goto thread .holding) := by
  have howns := total_owns s
  apply h.goto_slow hplace (by omega) rfl
  · simp [hnone]
  · exact henter
  · simpa using hwait
  · exact hlocked

/-- A thread that finds nobody entered takes the fast path: there is no one to compare with. -/
theorem Inv.goto_lockFast {enter : Int} (h : Inv s) (hplace : s.place thread = .lockEnter)
    (henter : enter = s.enter + 1) (hzero : s.enter = 0) :
    Inv ({ s with enter }.goto thread .lockFast) := by
  have hnone := h.total_inEnter_eq_zero hzero
  have hmove := fun weight => total_update_add weight s.place thread .lockFast
  simp only [hplace] at hmove
  have hpassed : total SpinLock.passed s.place ≤ total stays s.place := total_mono passed_le_stays
  have hstays : total stays s.place ≤ total inEnter s.place := total_mono stays_le_inEnter
  have henter' : _ + 0 = _ + 1 := hmove inEnter
  have hwait' : _ + 0 = _ + 0 := hmove inWait
  have hlocked' : _ + 0 = _ + 0 := hmove inLocked
  have howns' : _ + 0 = _ + 1 := hmove owns
  have hpassed' : _ + 0 = _ + 0 := hmove SpinLock.passed
  constructor
  · simp only [State.goto]
    omega
  · have := h.wait
    simp only [State.goto]
    omega
  · have := h.locked
    simp only [State.goto]
    omega
  · have := total_owns_eq_zero hnone
    simp only [State.goto]
    omega
  · intro _
    simp only [State.goto]
    omega
  · intro other loop value hother
    simp only [State.goto] at hother
    have hne : other ≠ thread := by
      intro heq
      rw [heq, Function.update_self] at hother
      cases hother
    rw [Function.update_of_ne hne] at hother
    have := weight_le_total inEnter s.place other
    rw [hother, hnone] at this
    cases this

theorem afterNeedWait_cases (loop : Loop) (result : Bool) :
    (∃ loop', afterNeedWait loop result = .readLocked loop') ∨
      (result = false ∧ afterNeedWait loop result = .lockUnwait) := by
  cases loop with
  | outer =>
      cases result with
      | false => exact Or.inr ⟨rfl, rfl⟩
      | true => exact Or.inl ⟨_, rfl⟩
  | inner i =>
      cases result with
      | false => exact Or.inl ⟨_, rfl⟩
      | true =>
          refine Or.inl ?_
          simp only [afterNeedWait]
          split <;> exact ⟨_, rfl⟩

/-- The values read justify going on: with a thread on the fast path the stale number of waiting
threads is below the number of those that have entered. -/
theorem Inv.goto_lockUnwait (h : Inv s) {loop : Loop}
    (hplace : s.place thread = .readEnter loop s.enter) : Inv (s.goto thread .lockUnwait) := by
  have hslow : total fast s.place = 0 := by
    by_contra hfast
    have hlt := h.stale thread loop s.enter hplace (Nat.pos_of_ne_zero hfast)
    have hle : total stays s.place ≤ total inEnter s.place := total_mono stays_le_inEnter
    have := h.enter
    omega
  exact h.goto_slow hplace hslow rfl (by simpa using h.owner) rfl rfl rfl

/-- The number of waiting threads a thread reads while another is on the fast path is below the
number of those that have entered to stay. -/
theorem Inv.goto_readEnter (h : Inv s) {loop : Loop} (hplace : s.place thread = .readWait loop) :
    Inv (s.goto thread (.readEnter loop s.wait)) := by
  have hwait : 0 < total fast s.place → s.wait < total stays s.place := by
    intro hfast
    have hle : total (fun p => inWait p + fast p) s.place ≤ total stays s.place :=
      total_mono inWait_add_fast_le_stays
    rw [total_add] at hle
    have := h.wait
    omega
  apply h.goto
  case hstale =>
    intro loop' value heq hfast
    obtain ⟨-, rfl⟩ := Place.readEnter.inj heq
    exact hwait hfast
  case howner =>
    simpa [hplace] using h.owner
  all_goals simp [hplace]

theorem advance_inv (hcard : Fintype.card Thread < 2 ^ 31) (h : Inv s)
    (hstep : advance s thread = some next) : Inv next := by
  have howner := h.owner
  cases hplace : s.place thread with
  | idle =>
      simp [advance, hplace] at hstep
  | lockEnter =>
      have hinc := inc_eq hcard inEnter_le_one h.enter (congrArg inEnter hplace)
      simp only [advance, hplace, Option.some.injEq] at hstep
      subst hstep
      by_cases hgt : inc s.enter > 1
      · rw [if_pos hgt]
        exact h.goto_plain hplace (by constructor <;> simp) (by simp [hinc]) rfl rfl
      · rw [if_neg hgt]
        have := h.enter
        exact h.goto_lockFast hplace hinc (by omega)
  | lockFast =>
      have hinc := inc_eq hcard inLocked_le_one h.locked (congrArg inLocked hplace)
      simp only [advance, hplace, Option.some.injEq] at hstep
      subst hstep
      exact h.goto_plain hplace (by constructor <;> simp) rfl rfl (by simp [hinc])
  | lockWait =>
      have hinc := inc_eq hcard inWait_le_one h.wait (congrArg inWait hplace)
      simp only [advance, hplace, Option.some.injEq] at hstep
      subst hstep
      exact h.goto_plain hplace (by constructor <;> simp) rfl (by simp [hinc]) rfl
  | readLocked loop =>
      simp only [advance, hplace, Option.some.injEq] at hstep
      subst hstep
      by_cases hlocked : s.locked ≠ 0
      · rw [if_pos hlocked]
        rcases afterNeedWait_cases loop true with ⟨loop', hloop⟩ | ⟨hresult, -⟩
        · rw [hloop]
          exact h.goto_plain hplace (by constructor <;> simp) rfl rfl rfl
        · cases hresult
      · rw [if_neg hlocked]
        exact h.goto_plain hplace (by constructor <;> simp) rfl rfl rfl
  | readWait loop =>
      simp only [advance, hplace, Option.some.injEq] at hstep
      subst hstep
      exact h.goto_readEnter hplace
  | readEnter loop wait =>
      simp only [advance, hplace, Option.some.injEq] at hstep
      subst hstep
      rcases afterNeedWait_cases loop (decide (wait ≠ s.enter)) with ⟨loop', hloop⟩ | ⟨heq, hloop⟩
      · rw [hloop]
        exact h.goto_plain hplace (by constructor <;> simp) rfl rfl rfl
      · rw [hloop]
        have hwait : wait = s.enter := by simpa using heq
        rw [hwait] at hplace
        exact h.goto_lockUnwait hplace
  | lockUnwait =>
      have hdec := dec_eq hcard inWait_le_one h.wait (congrArg inWait hplace)
      simp only [advance, hplace, Option.some.injEq] at hstep
      subst hstep
      have hslow := h.total_fast_of_passed (congrArg passed hplace)
      exact h.goto_slow hplace hslow rfl (by simpa using howner) rfl (by simp [hdec]) rfl
  | lockTake =>
      have hinc := inc_eq hcard inLocked_le_one h.locked (congrArg inLocked hplace)
      simp only [advance, hplace, Option.some.injEq] at hstep
      subst hstep
      by_cases hgt : inc s.locked > 1
      · rw [if_pos hgt]
        have hslow := h.total_fast_of_passed (congrArg passed hplace)
        exact h.goto_slow hplace hslow rfl (by simpa using howner) rfl rfl (by simp [hinc])
      · rw [if_neg hgt]
        have hlocked := h.locked
        have hnone := h.total_owns_of_lockTake hplace (by omega)
        exact h.goto_holding hplace hnone rfl (by simp) (by simp [hinc])
  | lockBack =>
      have hdec := dec_eq hcard inLocked_le_one h.locked (congrArg inLocked hplace)
      simp only [advance, hplace, Option.some.injEq] at hstep
      subst hstep
      exact h.goto_plain hplace (by constructor <;> simp) rfl rfl (by simp [hdec])
  | tryTake =>
      have hinc := inc_eq hcard inLocked_le_one h.locked (congrArg inLocked hplace)
      simp only [advance, hplace, Option.some.injEq] at hstep
      subst hstep
      split
      · exact h.goto_plain hplace (by constructor <;> simp) rfl rfl (by simp [hinc])
      · exact h.goto_plain hplace (by constructor <;> simp) rfl rfl (by simp [hinc])
  | tryEnter =>
      have hinc := inc_eq hcard inEnter_le_one h.enter (congrArg inEnter hplace)
      simp only [advance, hplace, Option.some.injEq] at hstep
      subst hstep
      by_cases hgt : inc s.enter > 1
      · rw [if_pos hgt]
        exact h.goto_plain hplace (by constructor <;> simp) (by simp [hinc]) rfl rfl
      · rw [if_neg hgt]
        have henter := h.enter
        have hnone := total_owns_eq_zero (h.total_inEnter_eq_zero (by omega))
        exact h.goto_holding hplace hnone (by simp [hinc]) (by simp) rfl
  | tryLeave =>
      have hdec := dec_eq hcard inEnter_le_one h.enter (congrArg inEnter hplace)
      simp only [advance, hplace, Option.some.injEq] at hstep
      subst hstep
      exact h.goto_plain hplace (by constructor <;> simp) (by simp [hdec]) rfl rfl
  | tryBack =>
      have hdec := dec_eq hcard inLocked_le_one h.locked (congrArg inLocked hplace)
      simp only [advance, hplace, Option.some.injEq] at hstep
      subst hstep
      exact h.goto_plain hplace (by constructor <;> simp) rfl rfl (by simp [hdec])
  | holding =>
      have hdec := dec_eq hcard inEnter_le_one h.enter (congrArg inEnter hplace)
      simp only [advance, hplace, Option.some.injEq] at hstep
      subst hstep
      have hslow := h.total_fast_of_holding hplace
      have howns : total owns s.place + 0 ≤ 1 + 1 := by omega
      exact h.goto_slow hplace hslow rfl howns (by simp [hdec]) rfl rfl
  | unlockRelease =>
      have hdec := dec_eq hcard inLocked_le_one h.locked (congrArg inLocked hplace)
      simp only [advance, hplace, Option.some.injEq] at hstep
      subst hstep
      exact h.goto_plain hplace (by constructor <;> simp) rfl rfl (by simp [hdec])

theorem step_inv (hcard : Fintype.card Thread < 2 ^ 31) {label : Label Thread} (h : Inv s)
    (hstep : step s label = some next) : Inv next := by
  cases label with
  | lock thread =>
      obtain ⟨hplace, hnext⟩ := Option.ite_none_right_eq_some.mp hstep
      rw [← Option.some.inj hnext]
      exact h.goto_plain hplace (by constructor <;> simp) rfl rfl rfl
  | tryLock thread =>
      obtain ⟨hplace, hnext⟩ := Option.ite_none_right_eq_some.mp hstep
      rw [← Option.some.inj hnext]
      exact h.goto_plain hplace (by constructor <;> simp) rfl rfl rfl
  | advance thread =>
      exact advance_inv hcard h hstep

/-! ### Whole runs -/

theorem Inv.holder_unique (h : Inv s) {left right : Thread} (hleft : s.place left = .holding)
    (hright : s.place right = .holding) : left = right := by
  by_contra hne
  have htwo : owns (s.place left) + owns (s.place right) ≤ total owns s.place :=
    weight_add_weight_le_total hne
  rw [hleft, hright] at htwo
  have howner := h.owner
  simp only [owns, fast, holds] at htwo
  omega

omit [DecidableEq Thread] in
theorem Inv.counters_eq_zero (h : Inv s) (hidle : ∀ thread, s.place thread = .idle) :
    s.enter = 0 ∧ s.wait = 0 ∧ s.locked = 0 := by
  have hzero : ∀ weight : Place → ℕ, weight .idle = 0 → total weight s.place = 0 :=
    fun weight hweight => total_eq_zero fun thread => by rw [hidle thread, hweight]
  rw [h.enter, h.wait, h.locked, hzero inEnter rfl, hzero inWait rfl, hzero inLocked rfl]
  exact ⟨rfl, rfl, rfl⟩

/-- No two threads are ever between the return of an acquiring call and the start of the matching
`unlock()`, and when no call is in progress and the lock is not held the counters are back at zero. -/
theorem spinLock_excludes (hcard : Fintype.card Thread < 2 ^ 31) (labels : List (Label Thread))
    (hrun : Machine.run step (init Thread) labels = some s) :
    (∀ left right, s.place left = .holding → s.place right = .holding → left = right) ∧
      ((∀ thread, s.place thread = .idle) → s.enter = 0 ∧ s.wait = 0 ∧ s.locked = 0) := by
  have hinv : Inv s :=
    Machine.run_invariant_of_forall (fun _ _ _ h hstep => step_inv hcard h hstep) init_inv hrun
  exact ⟨fun _ _ hleft hright => hinv.holder_unique hleft hright, hinv.counters_eq_zero⟩

theorem spinLock_excludes_two :
    ∃ s, Machine.run step (init (Fin 2))
        [.lock 0, .advance 0, .lock 1, .advance 1, .advance 1, .advance 0] = some s ∧
      s.place 0 = .holding ∧ s.place 1 = .readLocked .outer ∧
      ∀ left right, s.place left = .holding → s.place right = .holding → left = right :=
  ⟨_, rfl, rfl, rfl, (spinLock_excludes (by decide)
    [.lock 0, .advance 0, .lock 1, .advance 1, .advance 1, .advance 0] rfl).1⟩

end EasyLib.Common.SpinLock
