import EasyLib.Easytcp.Accepting

/-!
# The rotation of the accept loop

`next_` is reset where it equals `thread_num_`, after it has been used as an index. So each thread gets one
connection, and the next one is given to a thread that is not there.
-/

namespace EasyLib.Easytcp

open Machine

theorem createThreads_fresh {results : List PipeResult} {threads created : List ThreadInfo}
    (hcreate : createThreads threads results = some created) (hfresh : ∀ info ∈ threads, info.given = []) :
    created.length = threads.length + results.length ∧ ∀ info ∈ created, info.given = [] := by
  induction results generalizing threads with
  | nil =>
      obtain rfl := Option.some.inj hcreate
      exact ⟨rfl, hfresh⟩
  | cons result results ih =>
      obtain ⟨info, hinfo, hrest⟩ := Option.bind_eq_some_iff.mp hcreate
      have hgiven : info.given = [] := by
        cases result with
        | made readfd writefd =>
            obtain rfl := Option.some.inj hinfo
            rfl
        | _ => cases hinfo
      obtain ⟨hlen, hall⟩ := ih hrest fun other hother => by
        rcases List.mem_append.mp hother with hold | hnew
        · exact hfresh other hold
        · rw [List.mem_singleton.mp hnew, hgiven]
      refine ⟨?_, hall⟩
      rw [hlen, List.length_append, List.length_singleton, List.length_cons]
      omega

namespace Threadpool

variable {s : Threadpool} {fds : List Int}

/-- The first round over the threads: those in front of `next_` have been given a connection, the others
none. -/
structure FirstRound (s : Threadpool) : Prop where
  length_threads : s.threads.length = s.threadNum.toNat
  next_le : s.next.toNat ≤ s.threadNum.toNat
  given_le : ∀ i info, s.threads[i]? = some info →
    info.given.length ≤ if i < s.next.toNat then 1 else 0

theorem firstRound_new {threadNum : BitVec 16} {results : List PipeResult} {threads : List ThreadInfo}
    (hcreate : createThreads [] results = some threads) (hlen : results.length = threadNum.toNat) :
    (new threadNum threads).FirstRound := by
  obtain ⟨hlength, hfresh⟩ := createThreads_fresh hcreate fun info hinfo => absurd hinfo List.not_mem_nil
  refine ⟨?_, Nat.zero_le _, fun i info hinfo => ?_⟩
  · simpa [new, hlen] using hlength
  · rw [hfresh info (List.mem_of_getElem? hinfo)]
    exact Nat.zero_le _

theorem FirstRound.fair (h : s.FirstRound) : s.Fair := by
  intro info hinfo other _
  obtain ⟨i, hi⟩ := List.getElem?_of_mem hinfo
  have hgiven := h.given_le i info hi
  have hfilter := List.length_filter_le (fun fd : Int => decide (fd ≠ -1)) info.given
  have hone : (if i < s.next.toNat then 1 else 0) ≤ 1 := by
    split <;> omega
  unfold ThreadInfo.connections
  omega

theorem accept_eq {info : ThreadInfo} (hinfo : s.threads[s.next.toNat]? = some info)
    (hne : s.next ≠ s.threadNum) (newFd : Int) :
    s.accept newFd = some { s with
      threads := s.threads.set s.next.toNat { info with given := info.given ++ [newFd] }
      next := s.next + 1 } := by
  rw [accept, hinfo, Option.map_some, if_neg hne]

theorem FirstRound.accept (h : s.FirstRound) (hlt : s.next.toNat < s.threadNum.toNat) (newFd : Int) :
    ∃ s', s.accept newFd = some s' ∧ s'.FirstRound ∧ s'.threadNum = s.threadNum ∧
      s'.next.toNat = s.next.toNat + 1 := by
  have hlength := h.length_threads
  obtain ⟨info, hinfo⟩ : ∃ info, s.threads[s.next.toNat]? = some info :=
    ⟨_, List.getElem?_eq_getElem (by omega)⟩
  have hne : s.next ≠ s.threadNum := fun heq => by
    rw [heq] at hlt
    exact Nat.lt_irrefl _ hlt
  have hbound := s.threadNum.isLt
  have hnext : (s.next + 1).toNat = s.next.toNat + 1 := by
    rw [BitVec.toNat_add]
    exact Nat.mod_eq_of_lt (by simp; omega)
  have hempty : info.given.length = 0 := by
    have hgiven := h.given_le _ _ hinfo
    rw [if_neg (Nat.lt_irrefl _)] at hgiven
    omega
  refine ⟨_, accept_eq hinfo hne newFd, ⟨?_, ?_, fun i other hother => ?_⟩, rfl, hnext⟩
  · rw [List.length_set]
    exact hlength
  · rw [hnext]
    exact hlt
  · rw [hnext]
    by_cases hi : i = s.next.toNat
    · subst hi
      rw [List.getElem?_set_self (by omega)] at hother
      obtain rfl := Option.some.inj hother
      simp [hempty]
    · rw [List.getElem?_set_ne (Ne.symm hi)] at hother
      have hgiven := h.given_le i other hother
      split at hgiven <;> split <;> omega

theorem FirstRound.accept_none (h : s.FirstRound) (heq : s.next.toNat = s.threadNum.toNat)
    (newFd : Int) : s.accept newFd = none := by
  have hlength := h.length_threads
  rw [Threadpool.accept, List.getElem?_eq_none (by omega), Option.map_none]

theorem safe_iff_of_firstRound (h : s.FirstRound) :
    Safe accept Fair s fds ↔ s.next.toNat + fds.length ≤ s.threadNum.toNat := by
  induction fds generalizing s with
  | nil => exact iff_of_true h.fair h.next_le
  | cons newFd fds ih =>
      rw [List.length_cons]
      rcases Nat.lt_or_eq_of_le h.next_le with hlt | heq
      · obtain ⟨s', haccept, hround, hnum, hnext⟩ := h.accept hlt newFd
        have hrest := ih hround
        rw [hnum, hnext] at hrest
        constructor
        · rintro ⟨-, next, hstep, hsafe⟩
          obtain rfl := Option.mem_unique hstep haccept
          have hle := hrest.mp hsafe
          omega
        · intro hle
          exact ⟨h.fair, s', haccept, hrest.mpr (by omega)⟩
      · refine iff_of_false ?_ (by omega)
        rintro ⟨-, next, hstep, -⟩
        rw [h.accept_none heq newFd] at hstep
        cases hstep

/-- The accept loop stays inside `threads_`, and the threads have been given the same number of
connections up to one, exactly as long as no thread has had its second turn. -/
theorem safe_iff_length_le {threadNum : BitVec 16} {results : List PipeResult}
    {threads : List ThreadInfo} (hcreate : createThreads [] results = some threads)
    (hlen : results.length = threadNum.toNat) (fds : List Int) :
    Safe accept Fair (new threadNum threads) fds ↔ fds.length ≤ threadNum.toNat := by
  have hround := firstRound_new hcreate hlen
  rw [safe_iff_of_firstRound hround]
  simp [new]

theorem safe_iff_length_le_two :
    createThreads [] [.made 3 4, .made 5 6] = some [⟨4, []⟩, ⟨6, []⟩] ∧
    (Safe accept Fair (new 2 [⟨4, []⟩, ⟨6, []⟩]) [8, -1] ↔ [8, -1].length ≤ 2) :=
  ⟨rfl, @safe_iff_length_le 2 [.made 3 4, .made 5 6] _ rfl rfl [8, -1]⟩

/-- One thread: its second connection is written to a thread behind the end of the vector. -/
theorem accept_second : ¬ Safe accept Fair (new 1 [⟨4, []⟩]) [8, 9] := by
  decide

end Threadpool

end EasyLib.Easytcp
