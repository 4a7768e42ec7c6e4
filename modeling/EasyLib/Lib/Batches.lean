import Mathlib.Data.List.Range
import Mathlib.Tactic.Common

/-!
# Queues that are emptied in batches

A consumer that runs what producers have queued takes the whole queue at once, so as to hold its lock
for a moment only, and works through the batch without it. Number the items in the order of their
pushes. Every item is then in one of three places, and read one after the other the places list the
items in order: those started, those taken from the queue and not started, those in the queue.
-/

namespace EasyLib.Batches

def InStep (started taken queue : List ℕ) (pushed : ℕ) : Prop :=
  started ++ taken ++ queue = List.range pushed

variable {started taken queue : List ℕ} {item pushed : ℕ}

theorem inStep_new : InStep [] [] [] 0 := rfl

theorem InStep.push (h : InStep started taken queue pushed) :
    InStep started taken (queue ++ [pushed]) (pushed + 1) := by
  unfold InStep at *
  rw [List.range_succ, ← h, List.append_assoc (started ++ taken)]

/-- The queue becomes a batch in front of what is left of earlier ones, so one of the two must be
empty. -/
theorem InStep.swap (h : InStep started taken queue pushed) (hempty : queue = [] ∨ taken = []) :
    InStep started (queue ++ taken) [] pushed := by
  unfold InStep at *
  rcases hempty with rfl | rfl
  · rw [← h, List.nil_append]
  · rw [← h, List.append_nil, List.append_nil, List.append_nil]

theorem InStep.start (h : InStep started (item :: taken) queue pushed) :
    InStep (started ++ [item]) taken queue pushed := by
  unfold InStep at *
  rw [← h, List.append_assoc started [item] taken, List.singleton_append]

theorem InStep.started_prefix (h : InStep started taken queue pushed) :
    started <+: List.range pushed := by
  rw [← h, List.append_assoc]
  exact List.prefix_append started _

theorem InStep.started_sorted (h : InStep started taken queue pushed) :
    started.Pairwise (· < ·) := by
  have hsorted : (List.range pushed).Pairwise (· < ·) := List.pairwise_lt_range
  rw [← h, List.append_assoc] at hsorted
  exact (List.pairwise_append.mp hsorted).1

end EasyLib.Batches
