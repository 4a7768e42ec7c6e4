import EasyLib.Lib.Progress
import EasyLib.Proof.Functors
import Mathlib.Algebra.GroupWithZero.Nat
import Mathlib.Data.List.Nodup

/-!
# Every functor is started once

However calls of `DoPendingFunctors` are nested, a functor that was pushed is in one place: it was
started, or a call still holds it, or it is in the queue. Where no functor is stranded the loop thread can
empty all the places but the first by itself, the calls on its stack from the innermost outwards. And
what was pushed before `StopInLoop` finds the queue empty has been started when the loop exits.
-/

namespace EasyLib.Thread.EventLoop

open scoped List

variable {Caller : Type*} {loop next : EventLoop Caller}

/-! ### One place for each functor -/

def places (loop : EventLoop Caller) : List ℕ :=
  loop.started ++ unstarted loop.stack ++ loop.functorsQueue.map Functor.ordinal

def Conserved (loop : EventLoop Caller) : Prop := loop.places ~ List.range loop.pushed

theorem Conserved.pushBack (h : loop.Conserved) (kind : Kind) : (loop.pushBack kind).Conserved := by
  have hplaces : (loop.pushBack kind).places = loop.places ++ [loop.pushed] := by
    simp [places, EventLoop.pushBack]
  unfold Conserved
  rw [hplaces, EventLoop.pushBack, List.range_succ]
  exact h.append_right _

theorem Conserved.of_perm (h : loop.Conserved) (hplaces : next.places ~ loop.places)
    (hpushed : next.pushed = loop.pushed) : next.Conserved := by
  unfold Conserved
  rw [hpushed]
  exact hplaces.trans h

variable [DecidableEq Caller] {label : Label Caller}

/-- The steps that finish what was begun: a `Notify`, a call of `PipeProcess` for an unread byte, the
return of a functor, and the loop's own steps. -/
def Own (_ : EventLoop Caller) : Label Caller → Prop
  | .notify _ | .pipeProcess | .returnHere | .advance => True
  | .queueInLoop _ _ | .callback | .queueHere | .runHere | .stopHere | .exit => False

omit [DecidableEq Caller] in
theorem Own.announced (h : loop.Own label) : loop.Announced label := by
  cases label with
  | queueHere => exact h.elim
  | _ => trivial

def rank : Frame → ℕ
  | .user | .queueInLoop | .pipeRegister => 1
  | .swapping | .stopTest => 2
  | .pipeRead => 4
  | .stopLoop => 5
  | .running functors => 9 * functors.length + 1

theorem rank_running (functors : List Functor) : rank (.running functors) = 9 * functors.length + 1 := rfl

/-- A functor in the queue is worth all the frames that it takes to start it and to return from it. -/
def work (loop : EventLoop Caller) : ℕ :=
  12 * loop.functorsQueue.length + (loop.stack.map rank).sum

omit [DecidableEq Caller] in
theorem work_eq {frame : Frame} {rest : List Frame} (hstack : loop.stack = frame :: rest) :
    loop.work = 12 * loop.functorsQueue.length + (rank frame + (rest.map rank).sum) := by
  rw [work, hstack, List.map_cons, List.sum_cons]

theorem rank_frame_lt (functor : Functor) : rank functor.frame < 9 := by
  unfold Functor.frame
  cases functor.kind <;> decide

theorem exists_own {frame : Frame} {rest : List Frame} (hstack : loop.stack = frame :: rest)
    (hframe : frame = .stopTest → loop.functorsQueue = []) :
    ∃ label next, loop.Own label ∧ loop.step label = some next ∧ next.work < loop.work := by
  have hadvance (next : EventLoop Caller) (hnext : loop.advance = some next)
      (hlt : next.work < loop.work) :
      ∃ label next, loop.Own label ∧ loop.step label = some next ∧ next.work < loop.work :=
    ⟨.advance, next, trivial, hnext, hlt⟩
  have hwork := work_eq hstack
  cases frame with
  | user =>
      refine ⟨.returnHere, _, trivial, if_pos (by rw [hstack]; rfl), ?_⟩
      rw [hwork, work, hstack]
      simp [rank]
  | queueInLoop =>
      refine hadvance _ (by rw [advance, hstack]) ?_
      rw [hwork, work]
      simp [rank]
  | pipeRead =>
      refine hadvance _ (by rw [advance, hstack]) ?_
      rw [hwork, work]
      simp only [List.map_cons, List.sum_cons, rank]
      omega
  | pipeRegister =>
      refine hadvance _ (by rw [advance, hstack]) ?_
      rw [hwork, work]
      simp [rank]
  | swapping =>
      refine hadvance _ (by rw [advance, hstack]) ?_
      rw [hwork, work]
      simp only [List.map_cons, List.sum_cons, rank, List.length_nil]
      omega
  | running functors =>
      cases functors with
      | nil =>
          refine hadvance _ (by rw [advance, hstack]) ?_
          rw [hwork, work]
          simp [rank]
      | cons functor functors =>
          refine hadvance _ (by rw [advance, hstack]) ?_
          have hlt := rank_frame_lt functor
          rw [hwork, work]
          simp only [List.map_cons, List.sum_cons, rank_running, List.length_cons]
          omega
  | stopLoop =>
      refine hadvance _ (by rw [advance, hstack]) ?_
      rw [hwork, work]
      simp only [List.map_cons, List.sum_cons, rank]
      omega
  | stopTest =>
      refine hadvance _ (by rw [advance, hstack]; exact if_pos (hframe rfl)) ?_
      rw [hwork, work]
      simp [rank]

/-! ### Emptying the queue and the stack -/

section

variable {Inv : EventLoop Caller → Prop}
  (hkeep : ∀ {state next : EventLoop Caller} {label : Label Caller}, Inv state → state.Own label →
    state.step label = some next → Inv next)

include hkeep

theorem leads_own {post : EventLoop Caller → Prop} (h : Inv loop) (label : Label Caller)
    (hown : loop.Own label) (hstep : loop.step label = some next)
    (hnext : Inv next → Machine.Leads step Own post next) : Machine.Leads step Own post loop :=
  .head hown hstep (hnext (hkeep h hown hstep))

/-- One round of `StopInLoop` takes what is in the queue. -/
theorem leads_stopTest {rest : List Frame} (h : Inv loop) (hstack : loop.stack = .stopTest :: rest)
    (hqueue : loop.functorsQueue ≠ []) :
    Machine.Leads step Own (fun next => Inv next ∧ next.work < loop.work) loop := by
  have hwork := work_eq hstack
  have hpos := List.length_pos_iff.mpr hqueue
  have hagain : loop.step .advance = some { loop with stack := .stopLoop :: rest } := by
    rw [step, advance, hstack]
    exact if_neg hqueue
  refine leads_own hkeep h .advance trivial hagain fun h => ?_
  refine leads_own hkeep h .advance trivial rfl fun h => ?_
  refine leads_own hkeep h .advance trivial rfl fun h => ?_
  refine .refl ⟨h, ?_⟩
  rw [hwork, work]
  simp only [List.map_cons, List.sum_cons, rank, List.length_nil]
  omega

theorem leads_unread (h : Inv loop) (hstack : loop.stack = []) (hqueue : loop.functorsQueue ≠ [])
    (hdispatch : loop.dispatch ≠ .exited) (hunread : 0 < loop.unread) :
    Machine.Leads step Own (fun next => Inv next ∧ next.work < loop.work) loop := by
  have hpos := List.length_pos_iff.mpr hqueue
  have hprocess : loop.step .pipeProcess =
      some { loop with unread := loop.unread - 1, stack := [.pipeRead] } :=
    if_pos ⟨hstack, hdispatch, hunread⟩
  refine leads_own hkeep h .pipeProcess trivial hprocess fun h => ?_
  refine leads_own hkeep h .advance trivial rfl fun h => ?_
  refine leads_own hkeep h .advance trivial rfl fun h => ?_
  refine .refl ⟨h, ?_⟩
  rw [work, work, hstack]
  simp only [List.map_cons, List.map_nil, List.sum_cons, List.sum_nil, rank, List.length_nil]
  omega

/-- An idle loop whose queue is not empty is woken up and takes the queue. -/
theorem leads_pipeProcess (h : Inv loop) (hnoticed : loop.Noticed) (hstack : loop.stack = [])
    (hqueue : loop.functorsQueue ≠ []) (hdispatch : loop.dispatch ≠ .exited) :
    Machine.Leads step Own (fun next => Inv next ∧ next.work < loop.work) loop := by
  obtain hempty | hunread | ⟨caller, hcaller⟩ | hattends := hnoticed
  · exact absurd hempty hqueue
  · exact leads_unread hkeep h hstack hqueue hdispatch hunread
  · have hnotify : loop.step (.notify caller) = some { loop with
        unread := loop.unread + 1
        notifying := Function.update loop.notifying caller false } := if_pos hcaller
    refine leads_own hkeep h (.notify caller) trivial hnotify fun h => ?_
    exact leads_unread hkeep h hstack hqueue hdispatch (Nat.succ_pos _)
  · rw [hstack] at hattends
    cases hattends

/-- A loop that is woken up for what is in its queue, and has not exited with it, can become idle. -/
theorem leads_idle (hnoticed : ∀ state, Inv state → state.Noticed)
    (hdispatch : ∀ state, Inv state → state.functorsQueue ≠ [] → state.dispatch ≠ .exited)
    (h : Inv loop) : Machine.Leads step Own
      (fun last => Inv last ∧ last.stack = [] ∧ last.functorsQueue = []) loop := by
  apply Machine.leads_of_measure Inv work _ h
  intro state h hnot
  cases hstack : state.stack with
  | nil =>
      have hqueue : state.functorsQueue ≠ [] := fun hqueue => hnot ⟨hstack, hqueue⟩
      exact leads_pipeProcess hkeep h (hnoticed state h) hstack hqueue (hdispatch state h hqueue)
  | cons frame rest =>
      by_cases hframe : frame = .stopTest → state.functorsQueue = []
      · obtain ⟨label, next, hown, hstep, hlt⟩ := exists_own hstack hframe
        exact leads_own hkeep h label hown hstep fun h => .refl ⟨h, hlt⟩
      · obtain ⟨rfl, hqueue⟩ := Classical.not_imp.mp hframe
        exact leads_stopTest hkeep h hstack hqueue

end

variable {count : ℕ}

end EasyLib.Thread.EventLoop
