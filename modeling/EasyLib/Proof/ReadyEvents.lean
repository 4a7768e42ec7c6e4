import EasyLib.Reactors.Dispatch
import EasyLib.Proof.Polling

/-!
# Which ready events reach their callbacks

A round of `FillActiveChannels` touches one channel, and no channel is met twice; so the loop is known
from one round. What the round leaves in `revents_` is the event that was set last, and this is right
exactly for a descriptor that is not ready in both directions.
-/

namespace EasyLib.Reactors.SelectPoller

variable {p : SelectPoller} {readset writeset : FdSet} {fd : ℤ} {id : ℕ}

/-- What a round leaves in `revents_` of its channel. -/
def reventsAfter (read write : Bool) (revents : BitVec 32) : BitVec 32 :=
  if write then kWriteEvent else if read then kReadEvent else revents

@[simp]
theorem reventsAfter_write (read : Bool) (revents : BitVec 32) :
    reventsAfter read true revents = kWriteEvent := rfl

@[simp]
theorem reventsAfter_read (revents : BitVec 32) : reventsAfter true false revents = kReadEvent := rfl

theorem fillChannel_eq (s : Ready) (id : ℕ) (read write : Bool) :
    fillChannel s id read write =
      { activeChannels := s.activeChannels ++ if read || write then [id] else []
        revents := Function.update s.revents id (reventsAfter read write (s.revents id)) } := by
  cases read <;> cases write <;> simp [fillChannel, setRevents, reventsAfter, kReadEvent, kWriteEvent]

theorem fillRevents_cons {fds : List ℤ} (hfits : FdSet.Fits fd) (hid : p.channels fd = some id)
    (s : Ready) :
    p.fillRevents readset writeset (fd :: fds) s =
      p.fillRevents readset writeset fds (fillChannel s id (readset fd) (writeset fd)) := by
  rw [fillRevents, hid, Option.bind_some, FdSet.test, FdSet.test, if_pos hfits, if_pos hfits,
    Option.bind_some, Option.bind_some]

/-- The loop: a channel is appended when its descriptor is in a set, and its `revents_` are those of its
round. -/
theorem fillRevents_spec (readset writeset : FdSet) {fds : List ℤ} (hnodup : fds.Nodup)
    (hfds : ∀ fd ∈ fds, FdSet.Fits fd ∧ ∃ id, p.channels fd = some id ∧ p.fd id = fd) :
    ∀ s : Ready, ∃ last, p.fillRevents readset writeset fds s = some last ∧
      last.activeChannels = s.activeChannels ++
        (fds.filter fun fd => readset fd || writeset fd).filterMap p.channels ∧
      (∀ fd ∈ fds, ∀ id ∈ p.channels fd,
        last.revents id = reventsAfter (readset fd) (writeset fd) (s.revents id)) ∧
      ∀ id, p.fd id ∉ fds → last.revents id = s.revents id := by
  induction fds with
  | nil => exact fun s => ⟨s, rfl, by simp, by simp, fun _ _ => rfl⟩
  | cons fd fds ih =>
      intro s
      obtain ⟨⟨hfits, id, hid, hfd⟩, hrest⟩ := List.forall_mem_cons.mp hfds
      obtain ⟨hnotMem, hnodup⟩ := List.nodup_cons.mp hnodup
      obtain ⟨last, hlast, hactive, hrevents, hother⟩ :=
        ih hnodup hrest (fillChannel s id (readset fd) (writeset fd))
      rw [fillChannel_eq] at hactive hrevents hother
      dsimp only at hactive hrevents hother
      refine ⟨last, (fillRevents_cons hfits hid s).trans hlast, ?_, ?_, ?_⟩
      · rw [hactive, List.append_assoc]
        congr 1
        cases hready : readset fd || writeset fd <;> simp [hready, hid]
      · refine List.forall_mem_cons.mpr ⟨fun other hother' => ?_, fun fd' hfd' other hother' => ?_⟩
        · obtain rfl : id = other := Option.some.inj (hid.symm.trans hother')
          rw [hother id (hfd ▸ hnotMem), Function.update_self]
        · obtain ⟨-, id', hid', hfd''⟩ := hrest fd' hfd'
          obtain rfl : id' = other := Option.some.inj (hid'.symm.trans hother')
          have hne : id' ≠ id := by
            rintro rfl
            exact hnotMem (hfd ▸ hfd''.symm ▸ hfd')
          rw [hrevents fd' hfd' id' hid', Function.update_of_ne hne]
      · intro other hmem
        have hne : other ≠ id := by
          rintro rfl
          exact hmem (hfd ▸ List.mem_cons_self)
        rw [hother other fun h => hmem (List.mem_cons_of_mem fd h), Function.update_of_ne hne]

theorem fillActiveChannels_eq_filterMap {fds : List ℤ}
    (hfds : ∀ fd ∈ fds, FdSet.Fits fd ∧ ∃ id, p.channels fd = some id ∧ p.fd id = fd) :
    p.fillActiveChannels readset writeset fds =
      some ((fds.filter fun fd => readset fd || writeset fd).filterMap fun fd =>
        (p.channels fd).map fun id => (id, reventsAfter (readset fd) (writeset fd) 0)) := by
  induction fds with
  | nil => rfl
  | cons fd fds ih =>
      obtain ⟨⟨hfits, id, hid, -⟩, hrest⟩ := List.forall_mem_cons.mp hfds
      rw [fillActiveChannels, hid, Option.bind_some, FdSet.test, FdSet.test, if_pos hfits,
        if_pos hfits, Option.bind_some, Option.bind_some, ih hrest]
      cases hread : readset fd <;> cases hwrite : writeset fd <;>
        simp [hread, hwrite, hid, reventsAfter]

/-- The list that `Poll` returns is the one of the active channels, with their `revents_`. -/
theorem fillActiveChannels_eq {fds : List ℤ} (hnodup : fds.Nodup)
    (hfds : ∀ fd ∈ fds, FdSet.Fits fd ∧ ∃ id, p.channels fd = some id ∧ p.fd id = fd)
    (revents : ℕ → BitVec 32) :
    p.fillActiveChannels readset writeset fds =
      (p.fillRevents readset writeset fds ⟨[], revents⟩).map fun last =>
        last.activeChannels.map fun id => (id, last.revents id) := by
  obtain ⟨last, hlast, hactive, hrevents, -⟩ :=
    fillRevents_spec readset writeset hnodup hfds ⟨[], revents⟩
  rw [hlast, Option.map_some, hactive, List.nil_append, List.map_filterMap,
    fillActiveChannels_eq_filterMap hfds]
  congr 1
  refine List.filterMap_congr fun fd hfd => Option.map_congr fun id hid => ?_
  obtain ⟨hmem, hready⟩ := List.mem_filter.mp hfd
  rw [hrevents fd hmem id hid]
  cases hwrite : writeset fd
  · have hread : readset fd = true := by simpa [hwrite] using hready
    rw [hread]
    rfl
  · rfl

theorem told_iff_alone (read write tied : Bool) (revents : BitVec 32) :
    Told read write tied (reventsAfter read write revents) ↔ Alone read write tied revents := by
  cases read <;> cases write
  case true.true =>
    rw [reventsAfter_write]
    refine iff_of_false (fun h => ?_) fun h => h.notBoth ⟨rfl, rfl⟩
    exact absurd (h.readBit.mpr rfl) (by decide)
  case false.false =>
    constructor
    · intro h
      exact ⟨by simp, by simp, fun _ => ⟨mt h.readBit.mp Bool.false_ne_true,
        mt h.writeBit.mp Bool.false_ne_true⟩⟩
    · intro h
      obtain ⟨hread, hwrite⟩ := h.noneLeft ⟨rfl, rfl⟩
      exact ⟨iff_of_false hread Bool.false_ne_true, iff_of_false hwrite Bool.false_ne_true,
        by simp, by simp⟩
  case true.false =>
    rw [reventsAfter_read]
    constructor
    · intro h
      refine ⟨by simp, fun _ => ?_, by simp⟩
      cases tied with
      | false => rfl
      | true => exact absurd (h.runsRead rfl) (by decide)
    · intro h
      rw [h.untied (.inl rfl)]
      exact ⟨by decide, by decide, by decide, by decide⟩
  case false.true =>
    rw [reventsAfter_write]
    constructor
    · intro h
      refine ⟨by simp, fun _ => ?_, by simp⟩
      cases tied with
      | false => rfl
      | true => exact absurd (h.runsWrite rfl) (by decide)
    · intro h
      rw [h.untied (.inr rfl)]
      exact ⟨by decide, by decide, by decide, by decide⟩

theorem Inv.listed (h : Inv p) : p.Listed where
  nodup := h.nodup
  fits := h.fits
  keys := fun fd hfd => (h.keys fd).mp hfd
  owner := fun fd id hid => (h.owner fd id hid).1

theorem Listed.registered (h : p.Listed) :
    ∀ fd ∈ p.fds, FdSet.Fits fd ∧ ∃ id, p.channels fd = some id ∧ p.fd id = fd := by
  intro fd hfd
  obtain ⟨id, hid⟩ := Option.isSome_iff_exists.mp (h.keys fd hfd)
  exact ⟨h.fits fd hfd, id, hid, h.owner fd id hid⟩

theorem Listed.count_channels (h : p.Listed) (ready : ℤ → Bool) (hfd : fd ∈ p.fds)
    (hid : p.channels fd = some id) :
    ((p.fds.filter ready).filterMap p.channels).count id = if ready fd then 1 else 0 := by
  have hnodup : ((p.fds.filter ready).filterMap p.channels).Nodup := by
    apply (h.nodup.filter ready).filterMap
    intro fd other id hid hother
    exact (h.owner fd id hid).symm.trans (h.owner other id hother)
  have hmem : id ∈ (p.fds.filter ready).filterMap p.channels ↔ ready fd = true := by
    rw [List.mem_filterMap]
    constructor
    · rintro ⟨other, hother, hid'⟩
      obtain rfl : other = fd := (h.owner other id hid').symm.trans (h.owner fd id hid)
      exact (List.mem_filter.mp hother).2
    · intro hready
      exact ⟨fd, List.mem_filter.mpr ⟨hfd, hready⟩, hid⟩
  rw [hnodup.count]
  simp only [hmem]

/-- Each channel is appended once when its descriptor is in a set and not otherwise. All channels are
told what is ready, if and only if each descriptor is ready in one direction at most and no channel is
tied or has events left over. -/
theorem ready_events_told_iff (hlisted : p.Listed) (readset writeset : FdSet) (tied : ℕ → Bool)
    (s : Ready) :
    ∃ last, p.fillRevents readset writeset p.fds s = some last ∧
      (∀ fd ∈ p.fds, ∀ id ∈ p.channels fd, last.activeChannels.count id =
        s.activeChannels.count id + if readset fd || writeset fd then 1 else 0) ∧
      ((∀ fd ∈ p.fds, ∀ id ∈ p.channels fd,
          Told (readset fd) (writeset fd) (tied id) (last.revents id)) ↔
        ∀ fd ∈ p.fds, ∀ id ∈ p.channels fd,
          Alone (readset fd) (writeset fd) (tied id) (s.revents id)) := by
  obtain ⟨last, hlast, hactive, hrevents, -⟩ :=
    fillRevents_spec readset writeset hlisted.nodup hlisted.registered s
  refine ⟨last, hlast, fun fd hfd id hid => ?_, ?_⟩
  · rw [hactive, List.count_append, hlisted.count_channels _ hfd hid]
  · refine forall₂_congr fun fd hfd => forall₂_congr fun id hid => ?_
    rw [hrevents fd hfd id hid, told_iff_alone]

/-- A poller with one channel, for descriptor 5. -/
def single : SelectPoller :=
  { new (fun _ => 5) with
    fds := [5]
    channels := fun fd => if fd = 5 then some 0 else none }

theorem single_listed : single.Listed where
  nodup := by decide
  fits := by decide
  keys := by decide
  owner := fun fd id hid => (Option.ite_none_right_eq_some.mp hid).1.symm

theorem ready_events_told_single :
    ∃ last, single.fillRevents (fun _ => true) (fun _ => false) [5] ⟨[], fun _ => 0⟩ = some last ∧
      last.activeChannels.count 0 = 1 ∧ Told true false false (last.revents 0) := by
  obtain ⟨last, hlast, hcount, htold⟩ := ready_events_told_iff single_listed (fun _ => true)
    (fun _ => false) (fun _ => false) ⟨[], fun _ => 0⟩
  refine ⟨last, hlast, hcount 5 (by decide) 0 rfl, htold.mpr (fun fd _ id _ => ?_) 5 (by decide) 0 rfl⟩
  exact ⟨by simp, by simp, by simp⟩

/-- The channel of a descriptor that is in both sets is told about writing only. -/
theorem ready_events_untold :
    ∃ last, single.fillRevents (fun _ => true) (fun _ => true) [5] ⟨[], fun _ => 0⟩ = some last ∧
      last.activeChannels = [0] ∧ last.revents 0 = kWriteEvent ∧
      Channel.handleEvent false (last.revents 0) = [.write] := by
  refine ⟨_, rfl, rfl, ?_⟩
  decide

end EasyLib.Reactors.SelectPoller
