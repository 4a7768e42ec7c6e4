import EasyLib.Lib.Batches
import EasyLib.Thread.EventLoop

/-!
# Functors that wait and functors that overtake

A functor in the queue is run only after somebody has written to the pipe. `QueueInLoop` leaves the
write out on the loop thread outside `DoPendingFunctors`, so there the functor is noticed only if the
loop is woken up for another reason, and that is exactly when the queue strands nothing.

The order is kept by a simple bookkeeping: the functors started, then those that the calls of
`DoPendingFunctors` still hold from the innermost outwards, then the queue, are all functors in the
order of their pushes. The one step that can break it is the swap of a call inside another one.
-/

namespace EasyLib.Thread.EventLoop

open Batches

variable {Caller : Type*} {loop next : EventLoop Caller}

/-! ### Waking up -/

theorem Woken.of_eq (h : loop.Woken)
    (hattends : attends loop.callingPendingFunctors loop.stack = false)
    (hwakers : (next.unread, next.notifying) = (loop.unread, loop.notifying)) : next.Woken := by
  obtain ⟨hunread, hnotifying⟩ := Prod.mk.inj hwakers
  unfold Woken at h ⊢
  rw [hunread, hnotifying]
  rcases h with hunread | hcaller | htop
  · exact Or.inl hunread
  · exact Or.inr (Or.inl hcaller)
  · rw [hattends] at htop
    cases htop

theorem Noticed.of_eq (h : loop.Noticed)
    (hattends : attends loop.callingPendingFunctors loop.stack = false)
    (hparts : (next.functorsQueue, next.unread, next.notifying) =
      (loop.functorsQueue, loop.unread, loop.notifying)) : next.Noticed := by
  obtain ⟨hqueue, hwakers⟩ := Prod.mk.inj hparts
  apply h.imp
  · intro hempty
    rw [hqueue, hempty]
  · intro hwoken
    exact hwoken.of_eq hattends hwakers

theorem Noticed.of_attends (hattends : attends next.callingPendingFunctors next.stack) :
    next.Noticed := Or.inr (Or.inr (Or.inr hattends))

theorem Noticed.of_unread (hunread : 0 < next.unread) : next.Noticed := Or.inr (Or.inl hunread)

theorem advance_noticed (h : loop.Noticed) (hstep : loop.advance = some next) : next.Noticed := by
  cases hstack : loop.stack with
  | nil =>
      rw [advance, hstack] at hstep
      cases hstep
  | cons frame rest =>
      rw [advance, hstack] at hstep
      cases frame with
      | user => cases hstep
      | queueInLoop =>
          rw [← Option.some.inj hstep]
          cases hcalling : loop.callingPendingFunctors with
          | true => exact Noticed.of_unread (Nat.succ_pos _)
          | false => exact h.of_eq (by rw [hstack, hcalling]; rfl) rfl
      | pipeRead =>
          rw [← Option.some.inj hstep]
          exact Noticed.of_attends rfl
      | pipeRegister =>
          rw [← Option.some.inj hstep]
          exact h.of_eq (by rw [hstack]; rfl) rfl
      | swapping =>
          rw [← Option.some.inj hstep]
          exact Or.inl rfl
      | running functors =>
          cases functors with
          | nil =>
              rw [← Option.some.inj hstep]
              exact h.of_eq (by rw [hstack]; rfl) rfl
          | cons functor functors =>
              rw [← Option.some.inj hstep]
              exact h.of_eq (by rw [hstack]; rfl) rfl
      | stopLoop =>
          rw [← Option.some.inj hstep]
          exact Noticed.of_attends rfl
      | stopTest =>
          dsimp only at hstep
          split_ifs at hstep with hempty
          · rw [← Option.some.inj hstep]
            exact Or.inl hempty
          · rw [← Option.some.inj hstep]
            exact Noticed.of_attends rfl

variable [DecidableEq Caller] {label : Label Caller}

theorem attends_of_user {calling : Bool} {stack : List Frame} (huser : stack.head? = some .user) :
    attends calling stack = false := by
  cases stack with
  | nil => cases huser
  | cons frame rest =>
      obtain rfl : frame = .user := Option.some.inj huser
      rfl

theorem step_noticed (h : loop.Noticed) (hannounced : loop.Announced label)
    (hstep : loop.step label = some next) : next.Noticed := by
  cases label with
  | queueInLoop caller kind =>
      obtain ⟨-, hnext⟩ := Option.ite_none_left_eq_some.mp hstep
      rw [← Option.some.inj hnext]
      exact Or.inr (Or.inr (Or.inl ⟨caller, Function.update_self ..⟩))
  | notify caller =>
      obtain ⟨-, hnext⟩ := Option.ite_none_right_eq_some.mp hstep
      rw [← Option.some.inj hnext]
      exact Noticed.of_unread (Nat.succ_pos _)
  | pipeProcess =>
      obtain ⟨-, hnext⟩ := Option.ite_none_right_eq_some.mp hstep
      rw [← Option.some.inj hnext]
      exact Noticed.of_attends rfl
  | callback =>
      obtain ⟨⟨hstack, -⟩, hnext⟩ := Option.ite_none_right_eq_some.mp hstep
      rw [← Option.some.inj hnext]
      exact h.of_eq (by rw [hstack]; rfl) rfl
  | queueHere =>
      obtain ⟨huser, hnext⟩ := Option.ite_none_right_eq_some.mp hstep
      rw [← Option.some.inj hnext]
      rcases hannounced with hcalling | hwoken
      · exact Noticed.of_attends hcalling
      · exact Or.inr (hwoken.of_eq (attends_of_user huser) rfl)
  | runHere =>
      obtain ⟨huser, hnext⟩ := Option.ite_none_right_eq_some.mp hstep
      rw [← Option.some.inj hnext]
      exact h.of_eq (attends_of_user huser) rfl
  | stopHere =>
      obtain ⟨-, hnext⟩ := Option.ite_none_right_eq_some.mp hstep
      rw [← Option.some.inj hnext]
      exact Noticed.of_attends rfl
  | returnHere =>
      obtain ⟨huser, hnext⟩ := Option.ite_none_right_eq_some.mp hstep
      rw [← Option.some.inj hnext]
      exact h.of_eq (attends_of_user huser) rfl
  | advance => exact advance_noticed h hstep
  | exit =>
      obtain ⟨⟨hstack, -⟩, hnext⟩ := Option.ite_none_right_eq_some.mp hstep
      rw [← Option.some.inj hnext]
      exact h.of_eq (by rw [hstack]; rfl) rfl

theorem step_stranded (hannounced : ¬ loop.Announced label) (hstep : loop.step label = some next) :
    ¬ next.Noticed := by
  cases label with
  | queueHere =>
      obtain ⟨huser, hnext⟩ := Option.ite_none_right_eq_some.mp hstep
      obtain ⟨hcalling, hwoken⟩ := not_or.mp hannounced
      rw [← Option.some.inj hnext]
      rintro (hempty | hunread | hcaller | htop)
      · exact absurd hempty (List.append_ne_nil_of_right_ne_nil _ (List.cons_ne_nil _ _))
      · exact hwoken (Or.inl hunread)
      · exact hwoken (Or.inr (Or.inl hcaller))
      · exact hcalling htop
  | _ => exact absurd trivial hannounced

/-- The loop strands no functor in any state of a run if and only if every call of `QueueInLoop` on the
loop thread is made from a pending functor or while the loop is being woken up. -/
theorem functors_noticed_iff (labels : List (Label Caller))
    (henabled : Machine.AllSteps step (Machine.Enabled step) new labels) :
    Machine.Safe step Noticed (new : EventLoop Caller) labels ↔
      Machine.AllSteps step Announced new labels := by
  apply Machine.safe_iff_allSteps_of_enabled Noticed (fun _ h => h) (fun _ _ h => h) _ _ labels new
    (Or.inl rfl) henabled
  · intro loop label next h _ hannounced hstep
    exact step_noticed h hannounced hstep
  · intro loop label next _ hannounced hstep
    exact step_stranded hannounced hstep

theorem functors_noticed_two :
    Machine.Safe step Noticed (new : EventLoop (Fin 2))
      [.queueInLoop 0 .user, .callback, .queueHere, .advance, .notify 0, .returnHere, .pipeProcess,
        .advance, .advance] :=
  (functors_noticed_iff _ (by decide)).mpr (by decide)

/-- A callback of the loop queues a functor, nothing is written to the pipe, and the loop is idle with
the functor in its queue. -/
theorem functors_not_noticed_of_callback :
    ∃ loop, Machine.run step (new : EventLoop (Fin 1))
        [.callback, .queueHere, .advance, .returnHere] = some loop ∧
      loop.stack = [] ∧ ¬ loop.Noticed :=
  ⟨_, rfl, rfl, by decide⟩

/-! ### The order of the starts -/

section Order

variable {Caller : Type*} {loop next : EventLoop Caller}

def Ordered (loop : EventLoop Caller) : Prop :=
  InStep loop.started (unstarted loop.stack) (loop.functorsQueue.map Functor.ordinal) loop.pushed

theorem Ordered.pushBack (h : loop.Ordered) (kind : Kind) : (loop.pushBack kind).Ordered := by
  unfold Ordered EventLoop.pushBack at *
  rw [List.map_append]
  exact h.push

theorem Ordered.inStep {stack : List Frame} (h : loop.Ordered) (hstack : loop.stack = stack) :
    InStep loop.started (unstarted stack) (loop.functorsQueue.map Functor.ordinal) loop.pushed := by
  rw [← hstack]
  exact h

theorem Ordered.of_eq (h : loop.Ordered)
    (hparts : (next.started, unstarted next.stack, next.functorsQueue, next.pushed) =
      (loop.started, unstarted loop.stack, loop.functorsQueue, loop.pushed)) : next.Ordered := by
  simp only [Prod.mk.injEq] at hparts
  obtain ⟨hstarted, hstack, hqueue, hpushed⟩ := hparts
  unfold Ordered at *
  rw [hqueue, hstack, hstarted, hpushed]
  exact h

theorem Ordered.of_pop {frame : Frame} {rest : List Frame} (h : loop.Ordered)
    (hstack : loop.stack = frame :: rest) (hframe : frame.unstarted = [])
    (hparts : (next.started, unstarted next.stack, next.functorsQueue, next.pushed) =
      (loop.started, unstarted rest, loop.functorsQueue, loop.pushed)) : next.Ordered := by
  have hrest : unstarted rest = unstarted loop.stack := by
    rw [hstack, unstarted, unstarted, List.flatMap_cons, hframe, List.nil_append]
  apply h.of_eq
  rw [hparts, hrest]

theorem advance_ordered (h : loop.Ordered)
    (hsequential : loop.functorsQueue = [] ∨ unstartedAround loop.stack = [])
    (hstep : loop.advance = some next) : next.Ordered := by
  cases hstack : loop.stack with
  | nil =>
      rw [advance, hstack] at hstep
      cases hstep
  | cons frame rest =>
      rw [advance, hstack] at hstep
      cases frame with
      | user => cases hstep
      | queueInLoop =>
          rw [← Option.some.inj hstep]
          exact h.of_pop hstack rfl rfl
      | pipeRead =>
          rw [← Option.some.inj hstep]
          exact h.of_pop hstack rfl rfl
      | pipeRegister =>
          rw [← Option.some.inj hstep]
          exact h.of_pop hstack rfl rfl
      | swapping =>
          rw [← Option.some.inj hstep]
          rw [hstack] at hsequential
          apply (h.inStep hstack).swap
          exact hsequential.imp (fun hqueue => by rw [hqueue, List.map_nil]) id
      | running functors =>
          cases functors with
          | nil =>
              rw [← Option.some.inj hstep]
              exact h.of_pop hstack rfl rfl
          | cons functor functors =>
              rw [← Option.some.inj hstep]
              have hframe : functor.frame.unstarted = [] := by
                unfold Functor.frame
                cases functor.kind <;> rfl
              unfold Ordered unstarted
              rw [List.flatMap_cons, hframe, List.nil_append]
              exact (h.inStep hstack).start
      | stopLoop =>
          rw [← Option.some.inj hstep]
          exact h.of_pop hstack rfl rfl
      | stopTest =>
          dsimp only at hstep
          split_ifs at hstep with hempty
          · rw [← Option.some.inj hstep]
            exact h.of_pop hstack rfl rfl
          · rw [← Option.some.inj hstep]
            exact h.of_pop hstack rfl rfl

theorem unstarted_tail_of_user {stack : List Frame} (huser : stack.head? = some .user) :
    unstarted stack.tail = unstarted stack := by
  cases stack with
  | nil => cases huser
  | cons frame rest =>
      obtain rfl : frame = .user := Option.some.inj huser
      rfl

end Order

theorem step_ordered (h : loop.Ordered) (hsequential : loop.Sequential label)
    (hstep : loop.step label = some next) : next.Ordered := by
  cases label with
  | queueInLoop caller kind =>
      obtain ⟨-, hnext⟩ := Option.ite_none_left_eq_some.mp hstep
      rw [← Option.some.inj hnext]
      exact (h.pushBack kind).of_eq rfl
  | notify caller =>
      obtain ⟨-, hnext⟩ := Option.ite_none_right_eq_some.mp hstep
      rw [← Option.some.inj hnext]
      exact h.of_eq rfl
  | pipeProcess =>
      obtain ⟨⟨hstack, -⟩, hnext⟩ := Option.ite_none_right_eq_some.mp hstep
      rw [← Option.some.inj hnext]
      exact h.of_eq (by rw [hstack]; rfl)
  | callback =>
      obtain ⟨⟨hstack, -⟩, hnext⟩ := Option.ite_none_right_eq_some.mp hstep
      rw [← Option.some.inj hnext]
      exact h.of_eq (by rw [hstack]; rfl)
  | queueHere =>
      obtain ⟨-, hnext⟩ := Option.ite_none_right_eq_some.mp hstep
      rw [← Option.some.inj hnext]
      exact (h.pushBack .user).of_eq rfl
  | runHere =>
      obtain ⟨-, hnext⟩ := Option.ite_none_right_eq_some.mp hstep
      rw [← Option.some.inj hnext]
      exact h.of_eq rfl
  | stopHere =>
      obtain ⟨-, hnext⟩ := Option.ite_none_right_eq_some.mp hstep
      rw [← Option.some.inj hnext]
      exact h.of_eq rfl
  | returnHere =>
      obtain ⟨huser, hnext⟩ := Option.ite_none_right_eq_some.mp hstep
      rw [← Option.some.inj hnext]
      apply h.of_eq
      rw [unstarted_tail_of_user huser]
  | advance => exact advance_ordered h hsequential hstep
  | exit =>
      obtain ⟨-, hnext⟩ := Option.ite_none_right_eq_some.mp hstep
      rw [← Option.some.inj hnext]
      exact h.of_eq rfl

/-- In every run in which no batch is taken inside an unfinished one, the functors start in the order
of their pushes. -/
theorem functors_inOrder_of_sequential (labels : List (Label Caller))
    (hsequential : Machine.AllSteps step Sequential new labels) :
    Machine.Throughout step InOrder (new : EventLoop Caller) labels :=
  Machine.throughout_of_allSteps Ordered (fun _ h => h.started_sorted)
    (fun _ _ _ h hok hstep => step_ordered h hok hstep) labels new rfl hsequential

theorem functors_inOrder_three :
    (∃ loop, Machine.run step (new : EventLoop (Fin 2))
        [.queueInLoop 0 .user, .notify 0, .queueInLoop 0 .stop, .pipeProcess, .advance, .advance,
          .advance, .returnHere, .advance, .queueInLoop 1 .user, .advance, .advance, .advance] =
          some loop ∧ loop.started = [0, 1, 2]) ∧
      Machine.Throughout step InOrder (new : EventLoop (Fin 2))
        [.queueInLoop 0 .user, .notify 0, .queueInLoop 0 .stop, .pipeProcess, .advance, .advance,
          .advance, .returnHere, .advance, .queueInLoop 1 .user, .advance, .advance, .advance] :=
  ⟨⟨_, rfl, rfl⟩, functors_inOrder_of_sequential _ (by decide)⟩

/-- `Stop()` queued before a second functor: a third one, pushed while `StopInLoop` runs, is taken by
the inner batch and starts before the second. -/
theorem functors_not_inOrder_of_stop :
    ∃ loop, Machine.run step (new : EventLoop (Fin 2))
        [.queueInLoop 0 .stop, .notify 0, .queueInLoop 0 .user, .pipeProcess, .advance, .advance,
          .advance, .queueInLoop 1 .user, .advance, .advance, .advance, .returnHere, .advance,
          .advance, .advance] = some loop ∧
      loop.started = [0, 2, 1] ∧ ¬ loop.InOrder :=
  ⟨_, rfl, rfl, by decide⟩

end EasyLib.Thread.EventLoop
