import Mathlib.Data.List.Nodup
import EasyLib.Reactors.SelectPoller

/-!
# The structures of the poller stay in step

`Poll` is first brought into closed form: what it watches when every descriptor in `fds_` fits, and that
it has no result when one does not. The invariant then says of the bits what they mean, namely whether
the channel under the descriptor is interested, and that a channel is found under its descriptor exactly
while its last call was an update. Both branches of `UpdateChannel` leave the same (`registered`) when
the descriptor is free or the channel's own. The other calls each break one of the things asked for.
-/

namespace EasyLib.Reactors.SelectPoller

variable {p next : SelectPoller} {id : ℕ} {channel : Channel} {label : Label} {fd : ℤ}

/-! ### Sets of descriptors -/

theorem write_of_fits {set : FdSet} {value : Bool} (hfits : FdSet.Fits fd) :
    set.write fd value = some (Function.update set fd value) := if_pos hfits

theorem write_of_not_fits {set : FdSet} {value : Bool} (hfits : ¬ FdSet.Fits fd) :
    set.write fd value = none := if_neg hfits

theorem fill_cons {bits : FdSet} (hfits : FdSet.Fits fd) (fds : List ℤ) (set : FdSet) :
    fill bits (fd :: fds) set = fill bits fds fun other => set other || (other = fd && bits fd) := by
  rw [fill, FdSet.test, if_pos hfits, Option.bind_some]
  cases hbit : bits fd with
  | true =>
      rw [if_pos rfl, write_of_fits hfits, Option.bind_some]
      congr 1
      funext other
      by_cases heq : other = fd <;> simp [heq]
  | false => simp

theorem fill_eq {bits : FdSet} {fds : List ℤ} (hfits : ∀ fd ∈ fds, FdSet.Fits fd) (set : FdSet) :
    fill bits fds set = some fun fd => set fd || (fd ∈ fds && bits fd) := by
  induction fds generalizing set with
  | nil => simp [fill]
  | cons fd fds ih =>
      obtain ⟨hfd, hrest⟩ := List.forall_mem_cons.mp hfits
      rw [fill_cons hfd, ih hrest]
      congr 1
      funext other
      by_cases heq : other = fd
      · subst heq
        cases bits other <;> simp
      · simp [heq]

theorem fill_eq_none {bits : FdSet} {fds : List ℤ} (hmem : fd ∈ fds) (hfits : ¬ FdSet.Fits fd)
    (set : FdSet) : fill bits fds set = none := by
  induction fds generalizing set with
  | nil => cases hmem
  | cons other fds ih =>
      by_cases hother : FdSet.Fits other
      · have hmem' : fd ∈ fds :=
          (List.mem_cons.mp hmem).resolve_left fun heq => hfits (heq ▸ hother)
        simp only [fill, FdSet.test, if_pos hother, Option.bind_some, write_of_fits hother, ih hmem',
          ite_self]
      · rw [fill, FdSet.test, if_neg hother, Option.bind_none]

theorem fillActiveChannels_spec (readset writeset : FdSet) {fds : List ℤ}
    (hfds : ∀ fd ∈ fds, FdSet.Fits fd ∧ (p.channels fd).isSome) :
    ∃ active, p.fillActiveChannels readset writeset fds = some active ∧
      (active.map Prod.fst).Sublist (fds.filterMap p.channels) := by
  induction fds with
  | nil => exact ⟨[], rfl, List.Sublist.refl _⟩
  | cons fd fds ih =>
      obtain ⟨⟨hfits, hkey⟩, hrest⟩ := List.forall_mem_cons.mp hfds
      obtain ⟨channel, hchannel⟩ := Option.isSome_iff_exists.mp hkey
      obtain ⟨active, hactive, hsublist⟩ := ih hrest
      rw [fillActiveChannels, hchannel, Option.bind_some, FdSet.test, FdSet.test, if_pos hfits,
        if_pos hfits, Option.bind_some, Option.bind_some, hactive, List.filterMap_cons, hchannel]
      refine ⟨_, rfl, ?_⟩
      split_ifs
      · exact hsublist.cons_cons channel
      · exact hsublist.cons_cons channel
      · exact hsublist.cons channel

/-! ### The invariant -/

structure Inv (p : SelectPoller) : Prop where
  nodup : p.fds.Nodup
  fits : ∀ fd ∈ p.fds, FdSet.Fits fd
  maxFd : ∀ fd ∈ p.fds, fd ≤ p.maxFd
  keys : ∀ fd, fd ∈ p.fds ↔ (p.channels fd).isSome
  owner : ∀ fd id, p.channels fd = some id → p.fd id = fd ∧ p.last id = some .update
  updated : ∀ id, p.last id = some .update → p.channels (p.fd id) = some id
  reads : ∀ fd, p.readfds fd = true ↔ p.Interested Channel.isReading fd
  writes : ∀ fd, p.writefds fd = true ↔ p.Interested Channel.isWriting fd

theorem Inv.watched (h : Inv p) {bits : FdSet} {wants : Channel → Bool}
    (hbits : ∀ fd, bits fd = true ↔ p.Interested wants fd) :
    ∃ set, p.watched bits = some set ∧ ∀ fd, set fd = true ↔ p.Interested wants fd := by
  rw [SelectPoller.watched, fill_eq h.fits]
  refine ⟨_, rfl, fun fd => ?_⟩
  simp only [FdSet.zero, Bool.false_or, Bool.and_eq_true, decide_eq_true_eq, hbits]
  refine ⟨fun hset => hset.1.2, fun hwants => ?_⟩
  have hmem : fd ∈ p.fds := by
    obtain ⟨id, hid, -⟩ := hwants
    exact (h.keys fd).mpr (Option.isSome_of_eq_some hid)
  exact ⟨⟨hmem, hwants⟩, h.maxFd fd hmem⟩

/-- A bit that says whether the channel at `fd` is interested says what this channel wants. -/
theorem bit_eq {bits : FdSet} {wants : Channel → Bool}
    (hbits : ∀ fd, bits fd = true ↔ p.Interested wants fd) (hid : p.channels fd = some id) :
    bits fd = wants (p.objects id) := by
  rw [Bool.eq_iff_iff, hbits]
  constructor
  · rintro ⟨other, hother, hwants⟩
    obtain rfl : other = id := Option.some.inj (hother.symm.trans hid)
    exact hwants
  · intro hwants
    exact ⟨id, hid, hwants⟩

theorem bit_eq_false {bits : FdSet} {wants : Channel → Bool}
    (hbits : ∀ fd, bits fd = true ↔ p.Interested wants fd) (hnone : p.channels fd = none) :
    bits fd = false := by
  rw [← Bool.not_eq_true, hbits]
  rintro ⟨id, hid, -⟩
  cases hnone.symm.trans hid

theorem Inv.current (h : Inv p) (id : ℕ) : p.Current id := by
  unfold Current
  cases hlast : p.last id with
  | none => trivial
  | some call =>
      cases call with
      | update =>
          have hid := h.updated id hlast
          exact ⟨hid, bit_eq h.reads hid, bit_eq h.writes hid⟩
      | remove => exact fun hnone => ⟨bit_eq_false h.reads hnone, bit_eq_false h.writes hnone⟩

theorem Inv.nodup_channels (h : Inv p) : (p.fds.filterMap p.channels).Nodup := by
  apply h.nodup.filterMap
  intro fd other id hid hother
  exact (h.owner fd id hid).1.symm.trans (h.owner other id hother).1

theorem Inv.bookkept (h : Inv p) : p.Bookkept := by
  refine ⟨h.nodup, h.keys, h.current, h.maxFd, h.watched h.reads, h.watched h.writes, ?_⟩
  intro readable writable
  obtain ⟨readset, hreadset, -⟩ := h.watched h.reads
  obtain ⟨writeset, hwriteset, -⟩ := h.watched h.writes
  obtain ⟨active, hactive, hsublist⟩ :=
    fillActiveChannels_spec (fun fd => readset fd && readable fd) (fun fd => writeset fd && writable fd)
      fun fd (hfd : fd ∈ p.fds) => ⟨h.fits fd hfd, (h.keys fd).mp hfd⟩
  refine ⟨active, ?_, h.nodup_channels.sublist hsublist⟩
  rw [poll, hreadset, Option.bind_some, hwriteset, Option.bind_some, hactive]

theorem Inv.ne_of_fd_ne {other : ℕ} (h : Inv p) (hother : p.channels fd = some other)
    (hfd : fd ≠ p.fd id) : other ≠ id := by
  rintro rfl
  exact hfd (h.owner fd other hother).1.symm

/-- A channel that was updated last holds its descriptor, so it is not one that another channel has. -/
theorem fd_ne_of_updated {other : ℕ} (h : Inv p) (hfree : ∀ other ∈ p.channels (p.fd id), other = id)
    (hlast : p.last other = some .update) (hne : other ≠ id) : p.fd other ≠ p.fd id := by
  intro heq
  have hother := h.updated other hlast
  rw [heq] at hother
  exact hne (hfree other hother)

/-! ### The calls -/

theorem interested_assign {bits : FdSet} {wants : Channel → Bool} (h : Inv p)
    (hbits : ∀ fd, bits fd = true ↔ p.Interested wants fd) (fd : ℤ) :
    Function.update bits (p.fd id) (wants channel) fd = true ↔
      (p.assign id channel).Interested wants fd := by
  by_cases hfd : fd = p.fd id
  · subst hfd
    simp [Interested, assign]
  · rw [Function.update_of_ne hfd, hbits]
    refine exists_congr fun other => ?_
    simp only [assign, Function.update_of_ne hfd]
    refine and_congr_right fun hother => ?_
    rw [Function.update_of_ne (h.ne_of_fd_ne hother hfd)]

/-- What an update of the only channel for its descriptor leaves, in both branches. -/
def registered (p : SelectPoller) (id : ℕ) (channel : Channel) (index : ℕ → ℤ) (fds : List ℤ)
    (maxFd : ℤ) : SelectPoller :=
  { p.assign id channel with
    readfds := Function.update p.readfds (p.fd id) channel.isReading
    writefds := Function.update p.writefds (p.fd id) channel.isWriting
    index
    fds
    maxFd }

theorem registered_inv {index : ℕ → ℤ} {fds : List ℤ} {maxFd : ℤ} (h : Inv p)
    (hfits : FdSet.Fits (p.fd id)) (hfree : ∀ other ∈ p.channels (p.fd id), other = id)
    (hnodup : fds.Nodup) (hmem : ∀ fd, fd ∈ fds ↔ fd = p.fd id ∨ fd ∈ p.fds)
    (hmaxFd : ∀ fd ∈ fds, fd ≤ maxFd) : Inv (p.registered id channel index fds maxFd) := by
  refine ⟨hnodup, ?_, hmaxFd, ?_, ?_, ?_, interested_assign h h.reads, interested_assign h h.writes⟩
  · intro fd hfd
    obtain rfl | hfd := (hmem fd).mp hfd
    · exact hfits
    · exact h.fits fd hfd
  · intro fd
    rw [registered, hmem]
    by_cases hfd : fd = p.fd id
    · simp [assign, hfd]
    · simp [assign, hfd, h.keys]
  · intro fd other hother
    simp only [registered, assign] at hother ⊢
    by_cases hfd : fd = p.fd id
    · subst hfd
      rw [Function.update_self] at hother
      obtain rfl : id = other := Option.some.inj hother
      exact ⟨rfl, Function.update_self ..⟩
    · rw [Function.update_of_ne hfd] at hother
      rw [Function.update_of_ne (h.ne_of_fd_ne hother hfd)]
      exact h.owner fd other hother
  · intro other hlast
    simp only [registered, assign] at hlast ⊢
    by_cases hne : other = id
    · rw [hne, Function.update_self]
    · rw [Function.update_of_ne hne] at hlast
      rw [Function.update_of_ne (fd_ne_of_updated h hfree hlast hne)]
      exact h.updated other hlast

theorem modify_eq (hfits : FdSet.Fits (p.fd id)) :
    p.modify id channel = some (p.registered id channel p.index p.fds p.maxFd) := by
  rw [modify, write_of_fits hfits, write_of_fits hfits]
  rfl

theorem add_eq (hfits : FdSet.Fits (p.fd id)) (hread : p.readfds (p.fd id) = false)
    (hwrite : p.writefds (p.fd id) = false) :
    p.add id channel = some (p.registered id channel (Function.update p.index id 1)
      (p.fds ++ [p.fd id]) (if p.maxFd < p.fd id then p.fd id else p.maxFd)) := by
  have hset : ∀ (set : FdSet) (value : Bool), set (p.fd id) = false →
      (if value then set.write (p.fd id) true else some set) =
        some (Function.update set (p.fd id) value) := by
    intro set value hbit
    cases value with
    | true => rw [if_pos rfl, write_of_fits hfits]
    | false => rw [if_neg Bool.false_ne_true, ← hbit, Function.update_eq_self]
  rw [add, hset _ _ hread, hset _ _ hwrite]
  rfl

theorem updateChannel_inv (h : Inv p) (hmatched : p.Matched (.updateChannel id channel)) :
    ∃ next ∈ p.updateChannel id channel, Inv next := by
  obtain ⟨hfits, hadd, hmodify⟩ := hmatched
  unfold updateChannel
  by_cases hindex : p.index id < 0
  · have hnot : p.fd id ∉ p.fds := hadd hindex
    have hnone : p.channels (p.fd id) = none := by
      rw [← Option.not_isSome_iff_eq_none, ← h.keys]
      exact hnot
    rw [if_pos hindex, add_eq hfits (bit_eq_false h.reads hnone) (bit_eq_false h.writes hnone)]
    refine ⟨_, rfl, registered_inv h hfits ?_ ?_ ?_ ?_⟩
    · intro other hother
      cases hnone.symm.trans hother
    · rw [← List.concat_eq_append]
      exact (List.nodup_concat _ _).mpr ⟨hnot, h.nodup⟩
    · intro fd
      rw [List.mem_append, List.mem_singleton, or_comm]
    · intro fd hfd
      obtain hfd | hfd := List.mem_append.mp hfd
      · have hle := h.maxFd fd hfd
        split_ifs <;> omega
      · rw [List.mem_singleton.mp hfd]
        split_ifs <;> omega
  · have hid : p.channels (p.fd id) = some id := hmodify hindex
    have hmem : p.fd id ∈ p.fds := (h.keys _).mpr (Option.isSome_of_eq_some hid)
    rw [if_neg hindex, modify_eq hfits]
    refine ⟨_, rfl, registered_inv h hfits ?_ h.nodup ?_ h.maxFd⟩
    · intro other hother
      exact Option.some.inj (hother.symm.trans hid)
    · intro fd
      refine ⟨.inr, fun hfd => ?_⟩
      obtain rfl | hfd := hfd
      · exact hmem
      · exact hfd

def removed (p : SelectPoller) (id : ℕ) : SelectPoller :=
  { p with
    channels := Function.update p.channels (p.fd id) none
    fds := p.fds.filter (· ≠ p.fd id)
    readfds := Function.update p.readfds (p.fd id) false
    writefds := Function.update p.writefds (p.fd id) false
    last := Function.update p.last id (some .remove) }

theorem removeChannel_eq (hfits : FdSet.Fits (p.fd id)) : p.removeChannel id = some (p.removed id) := by
  rw [removeChannel, write_of_fits hfits, write_of_fits hfits]
  rfl

theorem interested_removed {bits : FdSet} {wants : Channel → Bool}
    (hbits : ∀ fd, bits fd = true ↔ p.Interested wants fd) (fd : ℤ) :
    Function.update bits (p.fd id) false fd = true ↔ (p.removed id).Interested wants fd := by
  by_cases hfd : fd = p.fd id
  · subst hfd
    simp [Interested, removed]
  · rw [Function.update_of_ne hfd, hbits]
    simp only [Interested, removed, Function.update_of_ne hfd]

theorem removed_inv (h : Inv p) (hfree : ∀ other ∈ p.channels (p.fd id), other = id) :
    Inv (p.removed id) := by
  refine ⟨h.nodup.filter _, ?_, ?_, ?_, ?_, ?_, interested_removed h.reads, interested_removed h.writes⟩
  · exact fun fd hfd => h.fits fd (List.mem_of_mem_filter hfd)
  · exact fun fd hfd => h.maxFd fd (List.mem_of_mem_filter hfd)
  · intro fd
    by_cases hfd : fd = p.fd id
    · simp [removed, hfd]
    · simp [removed, hfd, h.keys]
  · intro fd other hother
    simp only [removed] at hother ⊢
    have hfd : fd ≠ p.fd id := by
      rintro rfl
      rw [Function.update_self] at hother
      cases hother
    rw [Function.update_of_ne hfd] at hother
    rw [Function.update_of_ne (h.ne_of_fd_ne hother hfd)]
    exact h.owner fd other hother
  · intro other hlast
    simp only [removed] at hlast ⊢
    have hne : other ≠ id := by
      rintro rfl
      rw [Function.update_self] at hlast
      cases hlast
    rw [Function.update_of_ne hne] at hlast
    rw [Function.update_of_ne (fd_ne_of_updated h hfree hlast hne)]
    exact h.updated other hlast

/-! ### Calls that get the structures out of step -/

/-- Another channel that was updated last, and is not found under its descriptor. -/
theorem not_bookkept_of_displaced (other : ℕ) (hlast : p.last other = some .update)
    (hchannel : p.channels (p.fd other) ≠ some other) : ¬ p.Bookkept := by
  intro hbookkept
  have hcurrent := hbookkept.current other
  rw [Current, hlast] at hcurrent
  exact hchannel hcurrent.1

theorem add_not_bookkept (hmatched : ¬ (FdSet.Fits (p.fd id) ∧ p.fd id ∉ p.fds))
    (hadd : p.add id channel = some next) : ¬ next.Bookkept := by
  obtain ⟨readfds, -, hwrite⟩ := Option.bind_eq_some_iff.mp hadd
  obtain ⟨writefds, -, rfl⟩ := Option.map_eq_some_iff.mp hwrite
  intro hbookkept
  apply hmatched
  constructor
  · -- `Poll` would test a bit that does not fit.
    by_contra hfits
    obtain ⟨set, hset, -⟩ := hbookkept.watchesReads
    have hmem := List.mem_append_right p.fds (List.mem_singleton_self (p.fd id))
    rw [watched, fill_eq_none hmem hfits] at hset
    cases hset
  · intro hmem
    have hnodup := hbookkept.nodup
    rw [← List.concat_eq_append] at hnodup
    exact ((List.nodup_concat _ _).mp hnodup).1 hmem

theorem modify_not_bookkept (h : Inv p) (hmatched : ¬ (p.channels (p.fd id) = some id))
    (hmodify : p.modify id channel = some next) : ¬ next.Bookkept := by
  obtain ⟨readfds, -, hwrite⟩ := Option.bind_eq_some_iff.mp hmodify
  obtain ⟨writefds, -, rfl⟩ := Option.map_eq_some_iff.mp hwrite
  cases hchannel : p.channels (p.fd id) with
  | none =>
      intro hbookkept
      have hkey := (hbookkept.keys (p.fd id)).mpr (by simp [assign])
      have hold := (h.keys (p.fd id)).mp hkey
      rw [hchannel] at hold
      cases hold
  | some other =>
      obtain ⟨howner, hlast⟩ := h.owner _ _ hchannel
      have hne : other ≠ id := by
        rintro rfl
        exact hmatched hchannel
      apply not_bookkept_of_displaced other
      · simp [assign, hne, hlast]
      · simp [assign, howner, hne.symm]

theorem updateChannel_not_bookkept (h : Inv p) (hmatched : ¬ p.Matched (.updateChannel id channel))
    (hupdate : p.updateChannel id channel = some next) : ¬ next.Bookkept := by
  unfold updateChannel at hupdate
  by_cases hindex : p.index id < 0
  · rw [if_pos hindex] at hupdate
    refine add_not_bookkept (fun hfree => hmatched ?_) hupdate
    exact ⟨hfree.1, fun _ => hfree.2, fun hnot => absurd hindex hnot⟩
  · rw [if_neg hindex] at hupdate
    by_cases hfits : FdSet.Fits (p.fd id)
    · refine modify_not_bookkept h (fun hchannel => hmatched ?_) hupdate
      exact ⟨hfits, fun hneg => absurd hneg hindex, fun _ => hchannel⟩
    · rw [modify, write_of_not_fits hfits] at hupdate
      cases hupdate

theorem removeChannel_not_bookkept (h : Inv p) (hmatched : ¬ p.Matched (.removeChannel id))
    (hremove : p.removeChannel id = some next) : ¬ next.Bookkept := by
  by_cases hfits : FdSet.Fits (p.fd id)
  · rw [removeChannel_eq hfits] at hremove
    obtain rfl := Option.some.inj hremove
    obtain ⟨other, hother, hne⟩ : ∃ other ∈ p.channels (p.fd id), other ≠ id := by
      simpa [Matched, hfits] using hmatched
    obtain ⟨howner, hlast⟩ := h.owner _ _ hother
    apply not_bookkept_of_displaced other
    · simp [removed, hne, hlast]
    · simp [removed, howner]
  · rw [removeChannel, write_of_not_fits hfits] at hremove
    cases hremove

/-! ### Runs -/

theorem inv_new (fd : ℕ → ℤ) : Inv (new fd) := by
  constructor <;> simp [new, Interested, FdSet.zero]

/-- After every call of a sequence the structures are in step, and `Poll` watches exactly the registered
interests and reports a channel at most once, if and only if all the calls are `Matched`. -/
theorem bookkept_iff (fd : ℕ → ℤ) (labels : List Label) :
    Machine.Safe step Bookkept (new fd) labels ↔ Machine.AllSteps step Matched (new fd) labels := by
  have hadmissible : Machine.AllSteps step (fun _ _ => True) (new fd) labels :=
    Machine.allSteps_of_forall (fun _ _ => trivial) _ _
  apply Machine.safe_iff_allSteps Inv (fun _ h => h.bookkept) _ _ labels _ (inv_new fd) hadmissible
  · intro p label h _ hmatched
    cases label with
    | updateChannel id channel => exact updateChannel_inv h hmatched
    | removeChannel id => exact ⟨_, removeChannel_eq hmatched.1, removed_inv h hmatched.2⟩
  · intro p label h _ hmatched next hnext
    cases label with
    | updateChannel id channel => exact updateChannel_not_bookkept h hmatched hnext
    | removeChannel id => exact removeChannel_not_bookkept h hmatched hnext

/-- A channel that is added again after it was removed, and a new channel for a descriptor in use: the
first is in no list that `Poll` walks, the second is there twice. -/
theorem not_bookkept_added_again :
    (∃ p, Machine.run step (new fun _ => 5)
        [.updateChannel 0 ⟨kReadEvent⟩, .removeChannel 0, .updateChannel 0 ⟨kReadEvent⟩] = some p ∧
      p.channels 5 = some 0 ∧ p.readfds 5 = true ∧ p.fds = [] ∧ ¬ p.Bookkept) ∧
    ∃ p, Machine.run step (new fun _ => 5)
        [.updateChannel 0 ⟨kReadEvent⟩, .updateChannel 1 ⟨kWriteEvent⟩] = some p ∧
      p.fds = [5, 5] ∧ p.readfds 5 = true ∧ ¬ p.Bookkept := by
  constructor
  · refine ⟨_, rfl, rfl, rfl, rfl, fun hbookkept => ?_⟩
    have hmem := (hbookkept.keys 5).mpr rfl
    cases hmem
  · refine ⟨_, rfl, rfl, rfl, fun hbookkept => ?_⟩
    have hnodup := hbookkept.nodup
    revert hnodup
    decide

end EasyLib.Reactors.SelectPoller
