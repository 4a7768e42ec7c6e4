import EasyLib.Lib.Progress
import EasyLib.Proof.ConnectionPool

/-!
# The pool is never stuck

Threads that hold one connection while they wait for another can wait for each other. When each thread asks
for a connection only while it has none, every connection that is not in the queue is with a thread that
can release it, and the signals that are still owed reach those who wait. So whatever has happened, the
calls that have begun can be finished, and all connections brought back.
-/

namespace EasyLib.Common.MysqlPool

open CondVar Counting Machine
open scoped List

variable {Thread : Type*} {capacity : ℕ} {s next : MysqlPool Thread} {thread : Thread} {mysql : ℕ}

/-- A thread calls `get` only while it holds no connection. -/
def OneAtATime (s : MysqlPool Thread) : Label Thread → Prop
  | .get thread => s.held thread = []
  | .release _ _ | .signal _ _ | .wakeUp _ => True

instance (s : MysqlPool Thread) : DecidablePred s.OneAtATime
  | .get thread => inferInstanceAs (Decidable (s.held thread = []))
  | .release _ _ | .signal _ _ | .wakeUp _ => isTrue trivial

/-- No call of `get` begins, and nobody wakes up without a signal. -/
def NoCalls (s : MysqlPool Thread) : Label Thread → Prop
  | .get thread => s.place thread = .woken
  | .release _ _ | .signal _ _ => True
  | .wakeUp _ => False

structure AtRest (capacity : ℕ) (s : MysqlPool Thread) : Prop where
  away : ∀ thread, s.place thread = .outside .away
  returned : ∀ thread, s.held thread = []
  full : s.queue ~ List.range capacity

/-! ### What the threads hold -/

/-- A thread holds at most one connection, and none inside `get` or at the end of `release`. -/
def Modest (place : Place Use) (held : List ℕ) : Prop :=
  held.length ≤ 1 ∧ (place ≠ .outside .away → held = [])

theorem modest_nil (place : Place Use) : Modest place [] := ⟨Nat.zero_le 1, fun _ => rfl⟩

theorem Modest.away {place : Place Use} {held : List ℕ} (h : Modest place held) :
    Modest (.outside .away) held :=
  ⟨h.1, fun hne => absurd rfl hne⟩

def AllModest (s : MysqlPool Thread) : Prop := ∀ thread, Modest (s.place thread) (s.held thread)

variable [DecidableEq Thread]

theorem AllModest.update {place : Place Use} {held : List ℕ} (h : s.AllModest)
    (hmodest : Modest place held) (queue : List ℕ) (thread : Thread) :
    ({ queue
       place := Function.update s.place thread place
       held := Function.update s.held thread held } : MysqlPool Thread).AllModest := by
  intro other
  by_cases heq : other = thread
  · simp only [heq, Function.update_self]
    exact hmodest
  · simp only [Function.update_of_ne heq]
    exact h other

theorem AllModest.move {place : Place Use} (h : s.AllModest) (hmodest : Modest place (s.held thread)) :
    ({ s with place := Function.update s.place thread place } : MysqlPool Thread).AllModest := by
  have hupdate := h.update hmodest s.queue thread
  rwa [Function.update_eq_self] at hupdate

theorem get_modest (h : s.AllModest) (hheld : s.held thread = []) : (s.get thread).AllModest := by
  cases hqueue : s.queue with
  | nil =>
      rw [get_of_nil hqueue]
      exact h.move (hheld ▸ modest_nil _)
  | cons mysql queue =>
      rw [get_of_cons hqueue, hheld]
      exact h.update ⟨le_rfl, fun hne => absurd rfl hne⟩ queue thread

theorem release_modest (h : s.AllModest) (hmem : mysql ∈ s.held thread) :
    (s.release thread mysql).AllModest := by
  have hnil : (s.held thread).erase mysql = [] := by
    have hle := (h thread).1
    have hpos := List.length_pos_of_mem hmem
    apply List.eq_nil_of_length_eq_zero
    rw [List.length_erase_of_mem hmem]
    omega
  exact h.update (hnil ▸ modest_nil _) (s.queue ++ [mysql]) thread

theorem wake_modest {place : Thread → Place Use} (h : s.AllModest)
    (hwake : wake s.place thread = some place) :
    ({ s with place } : MysqlPool Thread).AllModest := by
  obtain ⟨hwaiting, hplace⟩ := Option.ite_none_right_eq_some.mp hwake
  obtain rfl := Option.some.inj hplace
  apply h.move
  have hheld : s.held thread = [] := by
    apply (h thread).2
    intro haway
    rw [haway] at hwaiting
    cases hwaiting
  rw [hheld]
  exact modest_nil _

variable [Fintype Thread]

theorem signal_modest {chosen : Option Thread} {place : Thread → Place Use} (h : s.AllModest)
    (hsignal : CondVar.signal s.place chosen = some place) :
    ({ s with place } : MysqlPool Thread).AllModest := by
  cases chosen with
  | some thread => exact wake_modest h hsignal
  | none =>
      obtain ⟨-, hplace⟩ := Option.ite_none_right_eq_some.mp hsignal
      obtain rfl := Option.some.inj hplace
      exact h

theorem step_modest {label : Label Thread} (h : s.AllModest) (hok : s.OneAtATime label)
    (hstep : s.step label = some next) : next.AllModest := by
  cases label with
  | get thread =>
      rw [step_get hstep]
      exact get_modest h hok
  | release thread mysql =>
      obtain ⟨⟨-, hmem⟩, hnext⟩ := Option.ite_none_right_eq_some.mp hstep
      rw [← Option.some.inj hnext]
      exact release_modest h hmem
  | signal thread chosen =>
      obtain ⟨-, hmap⟩ := Option.ite_none_right_eq_some.mp hstep
      obtain ⟨place, hsignal, rfl⟩ := Option.map_eq_some_iff.mp hmap
      have hmodest := signal_modest h hsignal
      exact hmodest.move (hmodest thread).away
  | wakeUp thread =>
      obtain ⟨place, hwake, rfl⟩ := Option.map_eq_some_iff.mp hstep
      exact wake_modest h hwake

/-! ### The way to rest -/

def rank : Place Use → ℕ
  | .outside .away => 0
  | .outside .signalling => 1
  | .woken => 3
  | .waiting => 4

/-- What is left to do: a connection that is got is still to be released. -/
def work (s : MysqlPool Thread) : ℕ := total rank s.place + 2 * total List.length s.held

structure Ready (capacity : ℕ) (s : MysqlPool Thread) : Prop where
  inv : Inv capacity s
  modest : s.AllModest

abbrev Closer (capacity : ℕ) (s : MysqlPool Thread) : Prop :=
  Leads step NoCalls (fun next => Ready capacity next ∧ next.work < s.work) s

theorem Ready.closer {label : Label Thread} (h : Ready capacity s) (hstep : s.step label = some next)
    (hcalls : s.NoCalls label) (hok : s.OneAtATime label) (hwork : next.work < s.work) :
    Closer capacity s :=
  .head hcalls hstep (.refl ⟨⟨step_inv h.inv hstep, step_modest h.modest hok hstep⟩, hwork⟩)

theorem exists_signal (place : Thread → Place Use) :
    ∃ chosen place', CondVar.signal place chosen = some place' ∧
      total rank place' ≤ total rank place := by
  by_cases hwaiting : ∃ thread, (place thread).isWaiting
  · obtain ⟨thread, hthread⟩ := hwaiting
    refine ⟨some thread, _, if_pos hthread, ?_⟩
    have htotal := total_update_add rank place thread .woken
    have hrank : rank (place thread) = 4 := by
      cases hplace : place thread with
      | waiting => rfl
      | outside use => rw [hplace] at hthread; cases hthread
      | woken => rw [hplace] at hthread; cases hthread
    have hwoken : rank .woken = 3 := rfl
    omega
  · have hnone : ∀ thread, !(place thread).isWaiting := by
      intro thread
      rw [Bool.not_eq_true']
      exact Bool.eq_false_of_not_eq_true fun hthread => hwaiting ⟨thread, hthread⟩
    exact ⟨none, place, if_pos hnone, le_rfl⟩

theorem Ready.closer_of_signalling (h : Ready capacity s)
    (hplace : s.place thread = .outside .signalling) : Closer capacity s := by
  obtain ⟨chosen, place, hsignal, hle⟩ := exists_signal s.place
  have hsame : place thread = .outside .signalling := by
    rw [signal_of_not_waiting (by rw [hplace]; rfl) hsignal, hplace]
  have hstep : s.step (.signal thread chosen) =
      some { s with place := Function.update place thread (.outside .away) } := by
    rw [step, if_pos hplace, hsignal]
    rfl
  refine h.closer hstep trivial trivial ?_
  have htotal := total_update_add rank place thread (.outside .away)
  have hone : rank (place thread) = 1 := by rw [hsame]; rfl
  have hzero : rank (.outside .away) = 0 := rfl
  simp only [work]
  omega

theorem Ready.closer_of_mem (h : Ready capacity s) (hmem : mysql ∈ s.held thread) :
    Closer capacity s := by
  have hplace : s.place thread = .outside .away := by
    by_contra hne
    rw [(h.modest thread).2 hne] at hmem
    cases hmem
  have hstep : s.step (.release thread mysql) = some (s.release thread mysql) := if_pos ⟨hplace, hmem⟩
  refine h.closer hstep trivial trivial ?_
  have hplaces := total_update_add rank s.place thread (.outside .signalling)
  have hheld := total_update_add List.length s.held thread ((s.held thread).erase mysql)
  have hlength := List.length_erase_of_mem hmem
  have hpos := List.length_pos_of_mem hmem
  have hzero : rank (s.place thread) = 0 := by rw [hplace]; rfl
  have hone : rank (.outside .signalling) = 1 := rfl
  simp only [work, release]
  omega

theorem Ready.closer_of_woken (h : Ready capacity s) (hplace : s.place thread = .woken)
    (hqueue : s.queue ≠ []) : Closer capacity s := by
  obtain ⟨mysql, queue, hcons⟩ := List.exists_cons_of_ne_nil hqueue
  have hheld : s.held thread = [] := (h.modest thread).2 (by rw [hplace]; simp)
  have hstep : s.step (.get thread) = some (s.get thread) := by simp only [step, hplace]
  refine h.closer hstep hplace hheld ?_
  have hplaces := total_update_add rank s.place thread (.outside .away)
  have hlengths := total_update_add List.length s.held thread (s.held thread ++ [mysql])
  have hwoken : rank (s.place thread) = 3 := by rw [hplace]; rfl
  have hzero : rank (.outside .away) = 0 := rfl
  rw [List.length_append, List.length_singleton] at hlengths
  simp only [work, get_of_cons hcons]
  omega

omit [DecidableEq Thread] in
/-- While nobody holds a connection, they are all in the queue. -/
theorem Inv.queue_perm (h : Inv capacity s) (hheld : ∀ thread, s.held thread = []) :
    s.queue ~ List.range capacity := by
  apply List.perm_iff_count.mpr
  intro mysql
  have hzero : total (List.count mysql) s.held = 0 :=
    total_eq_zero fun thread => by rw [hheld, List.count_nil]
  have hcount := h.partitioned mysql
  rw [hzero, Nat.add_zero] at hcount
  rw [hcount, count_range]

theorem Ready.closer_of_not_atRest (hpos : 0 < capacity) (h : Ready capacity s)
    (hrest : ¬ s.AtRest capacity) : Closer capacity s := by
  by_cases hsignalling : ∃ thread, s.place thread = .outside .signalling
  · obtain ⟨thread, hplace⟩ := hsignalling
    exact h.closer_of_signalling hplace
  by_cases hholds : ∃ thread, ∃ mysql, mysql ∈ s.held thread
  · obtain ⟨thread, mysql, hmem⟩ := hholds
    exact h.closer_of_mem hmem
  -- All connections are in the queue, so a thread that waits has somebody to look after it.
  have hheld : ∀ thread, s.held thread = [] := fun thread =>
    List.eq_nil_iff_forall_not_mem.mpr fun mysql hmem => hholds ⟨thread, mysql, hmem⟩
  have hfull := h.inv.queue_perm hheld
  have hqueue : s.queue ≠ [] := by
    intro hnil
    rw [hnil] at hfull
    have hlength := hfull.length_eq
    rw [List.length_range] at hlength
    exact hpos.ne hlength
  obtain ⟨thread, hthread⟩ : ∃ thread, s.place thread ≠ .outside .away := by
    by_contra hall
    exact hrest ⟨fun thread => not_not.mp fun hne => hall ⟨thread, hne⟩, hheld, hfull⟩
  obtain ⟨other, hwoken⟩ : ∃ other, s.place other = .woken := by
    cases hplace : s.place thread with
    | outside use =>
        cases use with
        | away => exact absurd hplace hthread
        | signalling => exact absurd ⟨thread, hplace⟩ hsignalling
    | woken => exact ⟨thread, hplace⟩
    | waiting =>
        obtain ⟨other, hwoken | hother⟩ := h.inv.attended hqueue thread (by rw [hplace]; rfl)
        · exact ⟨other, hwoken⟩
        · exact absurd ⟨other, hother⟩ hsignalling
  exact h.closer_of_woken hwoken hqueue

/-- **The pool is never stuck.** However threads that hold at most one connection each have used a pool with
a connection, they can finish the calls that have begun and bring all connections back. -/
theorem pool_settles {connects : ℕ → Bool} {capacity : BitVec 32} {labels : List (Label Thread)}
    (hinit : (init connects capacity).2 = true) (hpos : 0 < capacity.toInt)
    (hmodest : AllSteps step OneAtATime (start (init connects capacity).1) labels)
    (hrun : run step (start (init connects capacity).1) labels = some s) :
    Leads step NoCalls (AtRest capacity.toInt.toNat) s := by
  rw [init_of_true hinit] at hmodest hrun
  have hready : Ready capacity.toInt.toNat s :=
    run_invariant (Ready capacity.toInt.toNat)
      (fun _ _ _ h hok hstep => ⟨step_inv h.inv hstep, step_modest h.modest hok hstep⟩) labels _ s
      ⟨start_inv _, fun _ => modest_nil _⟩ hmodest hrun
  have hrest := leads_of_measure (Ready capacity.toInt.toNat) work
    (fun _ h hrest => h.closer_of_not_atRest (Int.lt_toNat.mpr hpos) hrest) hready
  exact hrest.imp fun _ hlast => hlast.2

/-- One connection for two threads: the second one waits, and the signal for it is still owed. -/
def oneReleased : List (Label Bool) := [.get false, .get true, .release false 0]

theorem pool_settles_one :
    ∃ s, run step (start (init (fun _ => true) 1).1) oneReleased = some s ∧
      s.place true = .waiting ∧ s.place false = .outside .signalling ∧
      Leads step NoCalls (AtRest 1) s := by
  have hinit : (init (fun _ => true) 1).2 = true := rfl
  have hmodest : AllSteps step OneAtATime (start (init (fun _ => true) 1).1) oneReleased := by decide
  exact ⟨_, rfl, rfl, rfl, pool_settles hinit (by decide) hmodest rfl⟩

end EasyLib.Common.MysqlPool
