import EasyLib.Lib.Progress
import EasyLib.Proof.MutualExclusion

/-!
# The spin lock is never stuck

A thread that advances alone comes to rest: it leaves the lock, or it ends up in the waiting loop. When
all the others are at rest, `m_bLocked` is free and everybody who has entered waits, so that the
condition of `needWait()` fails for the thread that is left to move, whatever stale value it may still
hold, and it gets the lock. No other call has to begin for this.
-/

namespace EasyLib.Common.SpinLock

open MachineInt Counting Machine

/-! ### Threads at rest -/

/-- How far a thread is from being at rest: outside the lock, or before the first read of
`needWait()`. -/
def rank : Place → ℕ
  | .idle | .readLocked _ => 0
  | .lockWait | .tryBack | .unlockRelease => 1
  | .lockBack | .tryLeave | .holding => 2
  | .lockFast | .lockTake | .tryEnter => 3
  | .lockEnter | .lockUnwait | .tryTake => 4
  | .readEnter _ _ => 5
  | .readWait _ => 6

def InLock : Place → Prop
  | .lockEnter | .lockFast | .lockWait | .readLocked _ | .readWait _ | .readEnter _ _ | .lockUnwait
  | .lockTake | .lockBack => True
  | _ => False

theorem inEnter_of_rank_eq_zero {place : Place} (hrank : rank place = 0) :
    inEnter place = inWait place ∧ inLocked place = 0 := by
  cases place <;> simp_all [rank]

variable {Thread : Type*} {s next : State Thread} {thread other : Thread}

/-- No call begins. -/
def NoCalls (_ : State Thread) (label : Label Thread) : Prop := ∃ thread, label = .advance thread

variable [DecidableEq Thread]

theorem exists_advance (hplace : s.place thread ≠ .idle) : ∃ next, advance s thread = some next := by
  cases hat : s.place thread <;> simp_all [advance]

theorem place_advance_of_ne (hstep : advance s thread = some next) (hne : other ≠ thread) :
    next.place other = s.place other := by
  cases hat : s.place thread <;> simp only [advance, hat, Option.some.injEq, reduceCtorEq] at hstep
  all_goals
    subst hstep
    exact Function.update_of_ne hne ..

theorem rank_afterNeedWait_le (loop : Loop) (result : Bool) : rank (afterNeedWait loop result) ≤ 4 := by
  rcases afterNeedWait_cases loop result with ⟨loop', hloop⟩ | ⟨-, hloop⟩
  · rw [hloop]
    exact Nat.zero_le 4
  · rw [hloop]
    exact le_rfl

/-- Every step but the reads of a waiting thread brings it closer to rest. -/
theorem rank_advance_lt (hstep : advance s thread = some next) (hrank : rank (s.place thread) ≠ 0) :
    rank (next.place thread) < rank (s.place thread) := by
  cases hat : s.place thread <;>
    simp only [advance, hat, Option.some.injEq, reduceCtorEq, rank, ne_eq, not_true_eq_false]
      at hstep hrank
  all_goals
    subst hstep
    simp only [State.goto, Function.update_self]
  case readEnter loop wait => exact Nat.lt_succ_of_le (rank_afterNeedWait_le loop _)
  case readWait loop => exact Nat.lt_succ_self 5
  all_goals
    try split
  all_goals
    decide

theorem place_goto_self (s : State Thread) (thread : Thread) (place : Place) :
    (s.goto thread place).place thread = place := Function.update_self ..

/-! ### One thread moves -/

variable [Fintype Thread] {places : Thread → Place}

/-- Only `thread` has moved since the threads were at `places`. -/
structure Around (places : Thread → Place) (thread : Thread) (s : State Thread) : Prop where
  inv : Inv s
  others : ∀ other ≠ thread, s.place other = places other

omit [DecidableEq Thread] in
theorem Inv.around (h : Inv s) (thread : Thread) : Around s.place thread s := ⟨h, fun _ _ => rfl⟩

section OneThread

variable (hcard : Fintype.card Thread < 2 ^ 31)
include hcard

theorem Around.advance (h : Around places thread s) (hstep : advance s thread = some next) :
    Around places thread next where
  inv := advance_inv hcard h.inv hstep
  others := fun other hne => (place_advance_of_ne hstep hne).trans (h.others other hne)

theorem Around.leads_head {post : State Thread → Prop} (h : Around places thread s)
    (hstep : SpinLock.advance s thread = some next)
    (hmore : Around places thread next → Leads step NoCalls post next) : Leads step NoCalls post s :=
  .head ⟨thread, rfl⟩ hstep (hmore (h.advance hcard hstep))

theorem Around.leads_rest (h : Around places thread s) :
    Leads step NoCalls (fun last => Around places thread last ∧ rank (last.place thread) = 0) s := by
  apply leads_of_measure (Around places thread) (fun s => rank (s.place thread)) _ h
  intro s h hrank
  have hplace : s.place thread ≠ .idle := fun hidle => hrank (congrArg rank hidle)
  obtain ⟨next, hstep⟩ := exists_advance hplace
  exact h.leads_head hcard hstep fun hnext => .refl ⟨hnext, rank_advance_lt hstep hrank⟩

end OneThread

/-! ### Everybody comes to rest -/

theorem total_lt_of_around {weight : Place → ℕ} (h : Around s.place thread next)
    (hlt : weight (next.place thread) < weight (s.place thread)) :
    total weight next.place < total weight s.place := by
  have hplace : next.place = Function.update s.place thread (next.place thread) := by
    funext other
    by_cases heq : other = thread
    · rw [heq, Function.update_self]
    · rw [Function.update_of_ne heq, h.others other heq]
  have htotal := total_update_add weight s.place thread (next.place thread)
  rw [← hplace] at htotal
  omega

/-- The threads that may move come to rest one after the other, and the rest stay where they are. -/
theorem Inv.leads_rest (h : Inv s) (hcard : Fintype.card Thread < 2 ^ 31) (moves : Thread → Prop) :
    Leads step NoCalls (fun last => (Inv last ∧ ∀ thread, ¬ moves thread →
      last.place thread = s.place thread) ∧ ∀ thread, moves thread → rank (last.place thread) = 0) s := by
  apply leads_of_measure (fun last => Inv last ∧ ∀ thread, ¬ moves thread →
    last.place thread = s.place thread) (fun last => total rank last.place) _ ⟨h, fun _ _ => rfl⟩
  rintro s' ⟨hinv, hstay⟩ hbusy
  simp only [not_forall] at hbusy
  obtain ⟨thread, hmoves, hrank⟩ := hbusy
  refine ((hinv.around thread).leads_rest hcard).imp ?_
  rintro last ⟨hlast, hzero⟩
  refine ⟨⟨hlast.inv, fun other hother => ?_⟩, total_lt_of_around hlast (by omega)⟩
  have hne : other ≠ thread := by
    rintro rfl
    exact hother hmoves
  rw [hlast.others other hne, hstay other hother]

/-! ### A thread that is alone in moving gets the lock -/

section Alone

variable (hrest : ∀ other ≠ thread, rank (places other) = 0)
include hrest

omit [DecidableEq Thread] in
theorem Around.rank_others (h : Around places thread s) :
    ∀ other ≠ thread, rank (s.place other) = 0 := by
  intro other hne
  rw [h.others other hne]
  exact hrest other hne

omit [DecidableEq Thread] in
theorem Around.locked_eq (h : Around places thread s) : s.locked = inLocked (s.place thread) := by
  have hothers : total inLocked s.place = inLocked (s.place thread) :=
    Fintype.sum_eq_single thread fun other hne =>
      (inEnter_of_rank_eq_zero (h.rank_others hrest other hne)).2
  rw [h.inv.locked, hothers]

theorem Around.enter_eq (h : Around places thread s) :
    s.enter + inWait (s.place thread) = s.wait + inEnter (s.place thread) := by
  have hothers : total inEnter (Function.update s.place thread .idle) =
      total inWait (Function.update s.place thread .idle) := by
    apply Finset.sum_congr rfl
    intro other _
    by_cases heq : other = thread
    · rw [heq, Function.update_self]
      rfl
    · rw [Function.update_of_ne heq]
      exact (inEnter_of_rank_eq_zero (h.rank_others hrest other heq)).1
  have henter : _ + _ = _ + 0 := total_update_add inEnter s.place thread .idle
  have hwait : _ + _ = _ + 0 := total_update_add inWait s.place thread .idle
  have := h.inv.enter
  have := h.inv.wait
  omega

variable (hcard : Fintype.card Thread < 2 ^ 31)
include hcard

def Takes (places : Thread → Place) (thread : Thread) (s : State Thread) : Prop :=
  Leads step NoCalls (fun last => Around places thread last ∧ last.place thread = .holding) s

theorem Around.takes_of_lockTake (h : Around places thread s) (hplace : s.place thread = .lockTake) :
    Takes places thread s := by
  have hlocked : s.locked = 0 := by
    rw [h.locked_eq hrest, hplace]
    rfl
  have hstep : SpinLock.advance s thread = some ({ s with locked := 1 }.goto thread .holding) := by
    rw [SpinLock.advance, hplace, hlocked]
    rfl
  exact h.leads_head hcard hstep fun hnext => .refl ⟨hnext, place_goto_self ..⟩

theorem Around.takes_of_lockUnwait (h : Around places thread s)
    (hplace : s.place thread = .lockUnwait) : Takes places thread s := by
  have hstep : SpinLock.advance s thread =
      some ({ s with wait := dec s.wait }.goto thread .lockTake) := by
    rw [SpinLock.advance, hplace]
  exact h.leads_head hcard hstep fun hnext =>
    hnext.takes_of_lockTake hrest hcard (place_goto_self ..)

/-- The values read are those of now, and they say that everybody who has entered waits. -/
theorem Around.leads_needWait_false {post : State Thread → Prop} {loop : Loop}
    (h : Around places thread s) (hplace : s.place thread = .readLocked loop)
    (hmore : ∀ next, Around places thread next → next.place thread = afterNeedWait loop false →
      Leads step NoCalls post next) : Leads step NoCalls post s := by
  have hlocked : s.locked = 0 := by
    rw [h.locked_eq hrest, hplace]
    rfl
  have hwait : s.wait = s.enter := by
    have henter := h.enter_eq hrest
    rw [hplace] at henter
    simp only [inWait, inEnter] at henter
    omega
  have hread : SpinLock.advance s thread = some (s.goto thread (.readWait loop)) := by
    rw [SpinLock.advance, hplace, hlocked]
    rfl
  refine h.leads_head hcard hread fun hfirst => ?_
  have hsecond : SpinLock.advance (s.goto thread (.readWait loop)) thread =
      some ((s.goto thread (.readWait loop)).goto thread (.readEnter loop s.wait)) := by
    rw [SpinLock.advance, place_goto_self]
    rfl
  refine hfirst.leads_head hcard hsecond fun hthird => ?_
  have hlast : SpinLock.advance ((s.goto thread (.readWait loop)).goto thread
      (.readEnter loop s.wait)) thread = some (((s.goto thread (.readWait loop)).goto thread
        (.readEnter loop s.wait)).goto thread (afterNeedWait loop (s.wait ≠ s.enter))) := by
    rw [SpinLock.advance, place_goto_self]
    rfl
  refine hthird.leads_head hcard hlast fun hnext => hmore _ hnext ?_
  rw [place_goto_self, hwait, decide_eq_false (not_not.mpr rfl)]

theorem Around.takes_of_readLocked {loop : Loop} (h : Around places thread s)
    (hplace : s.place thread = .readLocked loop) : Takes places thread s := by
  have houter : ∀ s, Around places thread s → s.place thread = .readLocked .outer →
      Takes places thread s := fun s h hplace =>
    h.leads_needWait_false hrest hcard hplace fun next hnext => hnext.takes_of_lockUnwait hrest hcard
  cases loop with
  | outer => exact houter s h hplace
  | inner i => exact h.leads_needWait_false hrest hcard hplace houter

theorem Around.takes_of_readEnter {loop : Loop} {wait : Int} (h : Around places thread s)
    (hplace : s.place thread = .readEnter loop wait) : Takes places thread s := by
  have hstep : SpinLock.advance s thread =
      some (s.goto thread (afterNeedWait loop (wait ≠ s.enter))) := by
    rw [SpinLock.advance, hplace]
  refine h.leads_head hcard hstep fun hnext => ?_
  rcases afterNeedWait_cases loop (decide (wait ≠ s.enter)) with ⟨loop', hloop⟩ | ⟨-, hloop⟩
  · exact hnext.takes_of_readLocked hrest hcard ((place_goto_self ..).trans hloop)
  · exact hnext.takes_of_lockUnwait hrest hcard ((place_goto_self ..).trans hloop)

theorem Around.takes_of_lockWait (h : Around places thread s) (hplace : s.place thread = .lockWait) :
    Takes places thread s := by
  have hstep : SpinLock.advance s thread =
      some ({ s with wait := inc s.wait }.goto thread (.readLocked .outer)) := by
    rw [SpinLock.advance, hplace]
  exact h.leads_head hcard hstep fun hnext =>
    hnext.takes_of_readLocked hrest hcard (place_goto_self ..)

omit hrest in
theorem Around.takes_of_lockFast (h : Around places thread s) (hplace : s.place thread = .lockFast) :
    Takes places thread s := by
  have hstep : SpinLock.advance s thread =
      some ({ s with locked := inc s.locked }.goto thread .holding) := by
    rw [SpinLock.advance, hplace]
  exact h.leads_head hcard hstep fun hnext => .refl ⟨hnext, place_goto_self ..⟩

theorem Around.takes (h : Around places thread s) (hlock : InLock (s.place thread)) :
    Takes places thread s := by
  cases hplace : s.place thread with
  | lockEnter =>
      have hstep : SpinLock.advance s thread = some ({ s with enter := inc s.enter }.goto thread
          (if inc s.enter > 1 then .lockWait else .lockFast)) := by
        rw [SpinLock.advance, hplace]
      refine h.leads_head hcard hstep fun hnext => ?_
      by_cases hgt : inc s.enter > 1
      · rw [if_pos hgt] at hnext ⊢
        exact hnext.takes_of_lockWait hrest hcard (place_goto_self ..)
      · rw [if_neg hgt] at hnext ⊢
        exact hnext.takes_of_lockFast hcard (place_goto_self ..)
  | lockFast => exact h.takes_of_lockFast hcard hplace
  | lockWait => exact h.takes_of_lockWait hrest hcard hplace
  | readLocked loop => exact h.takes_of_readLocked hrest hcard hplace
  | readWait loop =>
      have hstep : SpinLock.advance s thread = some (s.goto thread (.readEnter loop s.wait)) := by
        rw [SpinLock.advance, hplace]
      exact h.leads_head hcard hstep fun hnext =>
        hnext.takes_of_readEnter hrest hcard (place_goto_self ..)
  | readEnter loop wait => exact h.takes_of_readEnter hrest hcard hplace
  | lockUnwait => exact h.takes_of_lockUnwait hrest hcard hplace
  | lockTake => exact h.takes_of_lockTake hrest hcard hplace
  | lockBack =>
      have hstep : SpinLock.advance s thread =
          some ({ s with locked := dec s.locked }.goto thread .lockWait) := by
        rw [SpinLock.advance, hplace]
      exact h.leads_head hcard hstep fun hnext =>
        hnext.takes_of_lockWait hrest hcard (place_goto_self ..)
  | idle | tryTake | tryEnter | tryLeave | tryBack | holding | unlockRelease =>
      rw [hplace] at hlock
      cases hlock

/-- Who has got the lock can give it back. -/
theorem Around.leads_idle (h : Around places thread s) (hlock : InLock (s.place thread)) :
    Leads step NoCalls (fun last => Around places thread last ∧ last.place thread = .idle) s := by
  refine (h.takes hrest hcard hlock).trans ?_
  rintro s' ⟨h', hplace⟩
  have hunlock : SpinLock.advance s' thread =
      some ({ s' with enter := dec s'.enter }.goto thread .unlockRelease) := by
    rw [SpinLock.advance, hplace]
  refine h'.leads_head hcard hunlock fun hnext => ?_
  have hrelease := SpinLock.advance.eq_def ({ s' with enter := dec s'.enter }.goto thread .unlockRelease)
    thread
  rw [place_goto_self] at hrelease
  exact hnext.leads_head hcard hrelease fun hlast => .refl ⟨hlast, place_goto_self ..⟩

end Alone

theorem readLocked_of_rank_eq_zero {place : Place} (hrank : rank place = 0) (hidle : place ≠ .idle) :
    InLock place := by
  cases place <;> simp_all [rank, InLock]

/-- When everybody is at rest, the waiting threads take the lock and give it back in turn. -/
theorem Inv.leads_idle (h : Inv s) (hcard : Fintype.card Thread < 2 ^ 31)
    (hrest : ∀ thread, rank (s.place thread) = 0) :
    Leads step NoCalls (fun last => (Inv last ∧ ∀ thread, rank (last.place thread) = 0) ∧
      ∀ thread, last.place thread = .idle) s := by
  apply leads_of_measure (fun last => Inv last ∧ ∀ thread, rank (last.place thread) = 0)
    (fun last => total inEnter last.place) _ ⟨h, hrest⟩
  rintro s' ⟨hinv, hrest'⟩ hbusy
  simp only [not_forall] at hbusy
  obtain ⟨thread, hthread⟩ := hbusy
  have hlock := readLocked_of_rank_eq_zero (hrest' thread) hthread
  refine ((hinv.around thread).leads_idle (fun other _ => hrest' other) hcard hlock).imp ?_
  rintro last ⟨hlast, hidle⟩
  refine ⟨⟨hlast.inv, fun other => ?_⟩, total_lt_of_around hlast ?_⟩
  · by_cases heq : other = thread
    · rw [heq, hidle]
      rfl
    · rw [hlast.others other heq, hrest']
  · rw [hidle]
    have hrank := hrest' thread
    cases hplace : s'.place thread <;> simp_all [rank]

/-- **The lock is never stuck.** From every state that can be reached, without any call that has not
begun, each thread in `lock()` can get the lock, and all calls can be finished with the
lock free and its counters at zero. -/
theorem spinLock_progress (hcard : Fintype.card Thread < 2 ^ 31) (labels : List (Label Thread))
    (hrun : run step (init Thread) labels = some s) :
    (∀ thread, InLock (s.place thread) →
        Leads step NoCalls (fun last => last.place thread = .holding) s) ∧
      Leads step NoCalls (fun last => (∀ thread, last.place thread = .idle) ∧
        last.enter = 0 ∧ last.wait = 0 ∧ last.locked = 0) s := by
  have hinv : Inv s := run_invariant_of_forall (fun _ _ _ h hstep => step_inv hcard h hstep) init_inv hrun
  constructor
  · intro thread hlock
    refine (hinv.leads_rest hcard (· ≠ thread)).trans ?_
    rintro s' ⟨⟨hinv', hstay⟩, hrest⟩
    have hplace : s'.place thread = s.place thread := hstay thread (not_not.mpr rfl)
    rw [← hplace] at hlock
    exact ((hinv'.around thread).takes hrest hcard hlock).imp fun _ hlast => hlast.2
  · refine (hinv.leads_rest hcard fun _ => True).trans ?_
    rintro s' ⟨⟨hinv', -⟩, hrest⟩
    refine (hinv'.leads_idle hcard fun thread => hrest thread trivial).imp ?_
    rintro last ⟨⟨hlast, -⟩, hidle⟩
    exact ⟨hidle, hlast.counters_eq_zero hidle⟩

/-- Two threads wait with stale values while a third one holds the lock. -/
theorem spinLock_progress_three :
    ∃ s, run step (init (Fin 3))
        [.lock 0, .advance 0, .lock 1, .advance 1, .advance 1, .advance 1, .advance 1, .advance 0,
          .lock 2, .advance 2, .advance 2] = some s ∧
      s.place 0 = .holding ∧ s.place 1 = .readEnter .outer 1 ∧
      Leads step NoCalls (fun last => last.place 1 = .holding) s :=
  ⟨_, rfl, rfl, rfl, (spinLock_progress (by decide)
    [.lock 0, .advance 0, .lock 1, .advance 1, .advance 1, .advance 1, .advance 1, .advance 0,
      .lock 2, .advance 2, .advance 2] rfl).1 1 trivial⟩

end EasyLib.Common.SpinLock
