import EasyLib.Common.MysqlPool

/-!
# Connections are handed out exclusively

The queue and the threads share the connections, and each step moves one of them or none. A thread that
releases one owes a signal until it has sent it, so the connections in the queue stay covered although
the signal comes after the unlock.

All of this rests on `init` having made the connections it was asked for. Its loop compares an `int`, so
a capacity from `2 ^ 31` on is negative there and leaves a pool without a single one.
-/

namespace EasyLib.Common.MysqlPool

open CondVar Counting

/-! ### `init` -/

theorem initFrom_of_true {connects : ℕ → Bool} {rounds : ℕ} {made : ℕ}
    (hinit : (initFrom connects rounds (List.range made)).2 = true) :
    (initFrom connects rounds (List.range made)).1 = List.range (made + rounds) := by
  induction rounds generalizing made with
  | zero => rfl
  | succ rounds ih =>
      simp only [initFrom, List.length_range] at hinit ⊢
      by_cases hconnects : connects made = true
      · rw [if_pos hconnects, ← List.range_succ] at hinit ⊢
        rw [ih hinit]
        congr 1
        omega
      · rw [if_neg hconnects] at hinit
        cases hinit

theorem init_of_true {connects : ℕ → Bool} {capacity : BitVec 32}
    (hinit : (init connects capacity).2 = true) :
    (init connects capacity).1 = List.range capacity.toInt.toNat := by
  have hnone : (initFrom connects capacity.toInt.toNat (List.range 0)).2 = true := hinit
  have hrange := initFrom_of_true hnone
  rwa [Nat.zero_add] at hrange

/-! ### The pool in use -/

def credit : Use → ℕ
  | .away => 0
  | .signalling => 1

theorem credit_le_one (use : Use) : credit use ≤ 1 := by
  cases use with
  | away => exact Nat.zero_le 1
  | signalling => exact le_rfl

variable {Thread : Type*} [Fintype Thread] {capacity : ℕ} {s next : MysqlPool Thread}
  {thread : Thread} {mysql : ℕ}

structure Inv (capacity : ℕ) (s : MysqlPool Thread) : Prop where
  partitioned : s.Partitioned capacity
  covered : Covered credit s.queue.length s.place

theorem count_range (capacity mysql : ℕ) :
    (List.range capacity).count mysql = if mysql < capacity then 1 else 0 := by
  simp only [List.nodup_range.count, List.mem_range]

theorem start_inv (capacity : ℕ) : Inv capacity (start (List.range capacity) : MysqlPool Thread) where
  partitioned := by
    intro mysql
    have hheld : total (List.count mysql) (fun _ : Thread => ([] : List ℕ)) = 0 :=
      total_eq_zero fun _ => rfl
    rw [start, hheld, count_range, Nat.add_zero]
  covered := by
    rintro ⟨thread, hwaiting⟩
    cases hwaiting

theorem Inv.attended (h : Inv capacity s) : s.Attended := by
  intro hqueue thread hwaiting
  obtain ⟨other, hpos⟩ := h.covered.exists_pos (List.length_pos_of_ne_nil hqueue) hwaiting
  obtain hwoken | ⟨activity, hplace, hcredit⟩ := woken_or_credit_of_weight_pos hpos
  · exact ⟨other, Or.inl hwoken⟩
  · cases activity with
    | away => cases hcredit
    | signalling => exact ⟨other, Or.inr hplace⟩

variable [DecidableEq Thread]

omit [Fintype Thread] in
theorem get_of_nil (hqueue : s.queue = []) (thread : Thread) :
    s.get thread = { s with place := Function.update s.place thread .waiting } := by
  simp only [get, hqueue]

omit [Fintype Thread] in
theorem get_of_cons {queue : List ℕ} (hqueue : s.queue = mysql :: queue) (thread : Thread) :
    s.get thread =
      { queue
        place := Function.update s.place thread (.outside .away)
        held := Function.update s.held thread (s.held thread ++ [mysql]) } := by
  simp only [get, hqueue]

theorem get_inv (h : Inv capacity s) (thread : Thread) : Inv capacity (s.get thread) := by
  cases hqueue : s.queue with
  | nil =>
      rw [get_of_nil hqueue]
      refine ⟨h.partitioned, ?_⟩
      rw [hqueue]
      exact covered_zero
  | cons mysql queue =>
      rw [get_of_cons hqueue]
      constructor
      · intro other
        have hbefore := h.partitioned other
        have hheld := total_update_add (List.count other) s.held thread (s.held thread ++ [mysql])
        rw [hqueue, List.count_cons] at hbefore
        rw [List.count_append, List.count_singleton] at hheld
        dsimp only
        omega
      · have hle := weight_le_one credit_le_one (s.place thread)
        apply covered_update h.covered rfl
        rw [hqueue, List.length_cons]
        exact Nat.add_le_add_left hle queue.length

theorem release_inv (h : Inv capacity s) (hplace : s.place thread = .outside .away)
    (hmem : mysql ∈ s.held thread) : Inv capacity (s.release thread mysql) where
  partitioned := by
    intro other
    have hbefore := h.partitioned other
    have hheld := total_update_add (List.count other) s.held thread ((s.held thread).erase mysql)
    have hpos := List.count_pos_iff.mpr hmem
    rw [List.count_erase] at hheld
    simp only [release]
    rw [List.count_append, List.count_singleton]
    by_cases heq : mysql = other
    · subst heq
      rw [beq_self_eq_true, if_pos rfl] at *
      omega
    · rw [beq_eq_false_iff_ne.mpr heq] at *
      simp only [Bool.false_eq_true, if_false] at *
      omega
  covered := by
    apply covered_update h.covered rfl
    rw [hplace, release, List.length_append]
    exact le_rfl

theorem signal_inv {chosen : Option Thread} {place : Thread → Place Use} (h : Inv capacity s)
    (hplace : s.place thread = .outside .signalling)
    (hsignal : CondVar.signal s.place chosen = some place) :
    Inv capacity { s with place := Function.update place thread (.outside .away) } := by
  refine ⟨h.partitioned, ?_⟩
  have hsame : place thread = .outside .signalling := by
    rw [signal_of_not_waiting (by rw [hplace]; rfl) hsignal, hplace]
  apply covered_update (covered_signal h.covered hsignal) rfl
  rw [hsame]
  exact le_rfl

theorem step_get (hstep : s.step (.get thread) = some next) : next = s.get thread := by
  simp only [step] at hstep
  split at hstep
  · exact (Option.some.inj hstep).symm
  · exact (Option.some.inj hstep).symm
  · cases hstep

theorem step_inv {label : Label Thread} (h : Inv capacity s) (hstep : s.step label = some next) :
    Inv capacity next := by
  cases label with
  | get thread =>
      rw [step_get hstep]
      exact get_inv h thread
  | release thread mysql =>
      obtain ⟨⟨hplace, hmem⟩, hnext⟩ := Option.ite_none_right_eq_some.mp hstep
      rw [← Option.some.inj hnext]
      exact release_inv h hplace hmem
  | signal thread chosen =>
      obtain ⟨hplace, hmap⟩ := Option.ite_none_right_eq_some.mp hstep
      obtain ⟨place, hsignal, rfl⟩ := Option.map_eq_some_iff.mp hmap
      exact signal_inv h hplace hsignal
  | wakeUp thread =>
      obtain ⟨place, hwake, rfl⟩ := Option.map_eq_some_iff.mp hstep
      exact ⟨h.partitioned, h.covered.wake hwake⟩

theorem toInt_eq_toNat {capacity : BitVec 32} (hlt : capacity.toNat < 2 ^ 31) :
    capacity.toInt.toNat = capacity.toNat := by
  rw [BitVec.toInt_eq_toNat_of_lt (by omega)]
  rfl

/-- From `2 ^ 31` on the bound of the loop is negative. -/
theorem toInt_toNat_eq_zero {capacity : BitVec 32} (hge : ¬ capacity.toNat < 2 ^ 31) :
    capacity.toInt.toNat = 0 := by
  have hint := capacity.toInt_eq_toNat_cond
  have hlt := capacity.isLt
  omega

omit [DecidableEq Thread] in
theorem not_partitioned_start_nil (hpos : 0 < capacity) :
    ¬ (start [] : MysqlPool Thread).Partitioned capacity := by
  intro hpartitioned
  have hzero := hpartitioned 0
  have hheld : total (List.count 0) (start [] : MysqlPool Thread).held = 0 :=
    total_eq_zero fun _ => rfl
  rw [hheld, if_pos hpos] at hzero
  cases hzero

/-- **Each connection has one owner and no wake-up is lost, exactly for the capacities below `2 ^ 31`.** -/
theorem connections_partitioned_iff {connects : ℕ → Bool} {capacity : BitVec 32}
    (hinit : (init connects capacity).2 = true) :
    (∀ (labels : List (Label Thread)) (s : MysqlPool Thread),
        Machine.run step (start (init connects capacity).1) labels = some s →
        s.Partitioned capacity.toNat ∧ s.Attended) ↔
      capacity.toNat < 2 ^ 31 := by
  rw [init_of_true hinit]
  constructor
  · intro hall
    by_contra hge
    have hstart := (hall [] _ rfl).1
    rw [toInt_toNat_eq_zero hge] at hstart
    exact not_partitioned_start_nil (by omega) hstart
  · intro hlt labels s hrun
    rw [toInt_eq_toNat hlt] at hrun
    have hinv : Inv capacity.toNat s :=
      Machine.run_invariant_of_forall (fun _ _ _ => step_inv) (start_inv capacity.toNat) hrun
    exact ⟨hinv.partitioned, hinv.attended⟩

/-- One connection for two threads: the second one waits, and gets it after the signal. -/
theorem connections_partitioned_one :
    let labels : List (Label (Fin 2)) := [.get 0, .get 1, .release 0 0, .signal 0 (some 1), .get 1]
    ∃ s, Machine.run step (start (init (fun _ => true) 1).1) labels = some s ∧ s.held 1 = [0] ∧
      s.Partitioned 1 ∧ s.Attended := by
  intro labels
  have hinit : (init (fun _ => true) 1).2 = true := rfl
  exact ⟨_, rfl, rfl, (connections_partitioned_iff hinit).mpr (by decide) labels _ rfl⟩

/-- A pool asked for `2 ^ 31` connections has none, and `init` reports a success. -/
theorem connections_not_partitioned :
    init (fun _ => true) (BitVec.ofNat 32 (2 ^ 31)) = ([], true) ∧
      ¬ (start (init (fun _ => true) (BitVec.ofNat 32 (2 ^ 31))).1 : MysqlPool (Fin 2)).Partitioned
        (2 ^ 31) :=
  ⟨rfl, not_partitioned_start_nil (by decide)⟩

end EasyLib.Common.MysqlPool
