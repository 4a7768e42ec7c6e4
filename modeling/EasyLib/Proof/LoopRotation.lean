import EasyLib.Lib.Rotation
import EasyLib.Thread.EventLoopThreadPool

/-!
# Turns in a pool

`GetNextLoop` takes a 32-bit counter modulo the number of threads. Whatever the number, the threads take
turns until the counter wraps; over the wrap they do exactly if the number divides `2 ^ 32`.
-/

namespace EasyLib.Thread.EventLoopThreadPool

open MachineInt Rotation

variable {s : EventLoopThreadPool}

theorem interlockedInc32_lt (next : Int) : interlockedInc32 next < 2 ^ 32 := by
  unfold interlockedInc32
  omega

theorem interlockedInc32_eq (next : Int) : interlockedInc32 next = ((next + 1) % 2 ^ 32).toNat := by
  rw [interlockedInc32, toInt32_emod]

/-- One more increment. -/
theorem interlockedInc32_toInt32 (next : Int) :
    interlockedInc32 (toInt32 (next + 1)) = (interlockedInc32 next + 1) % 2 ^ 32 := by
  have hvalue := toInt32_emod (next + 1)
  rw [interlockedInc32_eq, interlockedInc32_eq]
  omega

theorem getNextLoop_eq (hne : s.threads ≠ []) :
    ∃ thread, s.threads[s.nextIndex]? = some thread ∧
      s.getNextLoop = some ({ s with next := toInt32 (s.next + 1) }, some thread) := by
  have hpos := List.length_pos_iff.mpr hne
  have hlt : s.nextIndex < s.threads.length := Nat.mod_lt _ hpos
  refine ⟨_, List.getElem?_eq_getElem hlt, ?_⟩
  rw [getNextLoop, if_neg hne, ← nextIndex, List.getElem?_eq_getElem hlt, Option.map_some]

theorem getNextLoops_eq (hne : s.threads ≠ []) (count : ℕ) :
    ∃ last, s.getNextLoops count =
        some (last, places (2 ^ 32) s.threads.length (interlockedInc32 s.next) count) ∧
      last.threads = s.threads ∧
      interlockedInc32 last.next = (interlockedInc32 s.next + count) % 2 ^ 32 := by
  induction count generalizing s with
  | zero => exact ⟨s, rfl, rfl, (Nat.mod_eq_of_lt (interlockedInc32_lt s.next)).symm⟩
  | succ count ih =>
      obtain ⟨thread, -, hcall⟩ := getNextLoop_eq hne
      have hne' : ({ s with next := toInt32 (s.next + 1) } : EventLoopThreadPool).threads ≠ [] := hne
      obtain ⟨last, hcalls, hthreads, hlast⟩ := ih hne'
      refine ⟨last, ?_, hthreads, ?_⟩
      · rw [getNextLoops, hcall, Option.bind_some, hcalls, Option.map_some, places_succ,
          interlockedInc32_toInt32, nextIndex, Nat.mod_eq_of_lt (interlockedInc32_lt s.next)]
      · rw [hlast, interlockedInc32_toInt32, Nat.mod_add_mod, Nat.add_assoc, Nat.add_comm 1 count]

theorem fairWindow_iff (hne : s.threads ≠ []) :
    s.FairWindow ↔ s.threads.length ∣ 2 ^ 32 ∨
      interlockedInc32 s.next + s.threads.length ≤ 2 ^ 32 := by
  obtain ⟨last, hcalls, -⟩ := getNextLoops_eq hne s.threads.length
  rw [← places_nodup_iff_dvd_or_le (interlockedInc32_lt s.next) (List.length_pos_iff.mpr hne)]
  constructor
  · rintro ⟨last', indices, hcalls', hnodup⟩
    rw [hcalls] at hcalls'
    cases hcalls'
    exact hnodup
  · exact fun hnodup => ⟨last, _, hcalls, hnodup⟩

/-- Some number of calls brings the counter to its last value before the wrap. -/
theorem exists_calls_to_wrap (first : ℕ) (hfirst : first < 2 ^ 32) :
    ∃ calls, (first + calls) % 2 ^ 32 = 2 ^ 32 - 1 :=
  ⟨2 ^ 32 - 1 - first, by omega⟩

/-- The window behind any number of calls. -/
theorem window_spec (hne : s.threads ≠ []) (calls : ℕ) :
    ∃ last before, s.getNextLoops calls = some (last, before) ∧
      interlockedInc32 last.next = (interlockedInc32 s.next + calls) % 2 ^ 32 ∧
      (last.FairWindow ↔ s.threads.length ∣ 2 ^ 32 ∨
        interlockedInc32 last.next + s.threads.length ≤ 2 ^ 32) := by
  obtain ⟨last, hcalls, hthreads, hlast⟩ := getNextLoops_eq hne calls
  refine ⟨last, _, hcalls, hlast, ?_⟩
  rw [← hthreads] at hne ⊢
  exact fairWindow_iff hne

/-- The threads take turns in every window that does not reach over the wrap of the counter, and in all
windows exactly if their number divides `2 ^ 32`. -/
theorem fairWindow_rotation (hne : s.threads ≠ []) :
    (∀ calls, ∃ last before, s.getNextLoops calls = some (last, before) ∧
      (last.FairWindow ↔ s.threads.length ∣ 2 ^ 32 ∨
        interlockedInc32 last.next + s.threads.length ≤ 2 ^ 32)) ∧
    ((∀ calls last before, s.getNextLoops calls = some (last, before) → last.FairWindow) ↔
      s.threads.length ∣ 2 ^ 32) := by
  refine ⟨fun calls => ?_, fun hall => ?_, fun hdvd calls last before hcalls => ?_⟩
  · obtain ⟨last, before, hcalls, -, hiff⟩ := window_spec hne calls
    exact ⟨last, before, hcalls, hiff⟩
  · obtain ⟨calls, hwrap⟩ := exists_calls_to_wrap _ (interlockedInc32_lt s.next)
    obtain ⟨last, before, hcalls, hlast, hiff⟩ := window_spec hne calls
    rcases hiff.mp (hall calls last before hcalls) with hdvd | hle
    · exact hdvd
    · have hpos := List.length_pos_iff.mpr hne
      have hone : s.threads.length = 1 := by omega
      rw [hone]
      exact one_dvd _
  · obtain ⟨last', before', hcalls', -, hiff⟩ := window_spec hne calls
    obtain ⟨rfl, rfl⟩ := Prod.mk.inj (Option.some.inj (hcalls.symm.trans hcalls'))
    exact hiff.mpr (Or.inl hdvd)

/-- Three threads in a pool where nothing has been asked for. -/
def three : EventLoopThreadPool := { new with threads := [⟨true⟩, ⟨true⟩, ⟨true⟩], threadsNum := 3 }

theorem fairWindow_rotation_three :
    (∀ calls, ∃ last before, three.getNextLoops calls = some (last, before) ∧
      (last.FairWindow ↔ three.threads.length ∣ 2 ^ 32 ∨
        interlockedInc32 last.next + three.threads.length ≤ 2 ^ 32)) ∧
    ((∀ calls last before, three.getNextLoops calls = some (last, before) → last.FairWindow) ↔
      three.threads.length ∣ 2 ^ 32) :=
  fairWindow_rotation (List.cons_ne_nil _ _)

/-- The counter wraps behind `2 ^ 32 - 1`, which is divisible by three, to 0, which is as well. -/
theorem three_wraps : ∃ last before, three.getNextLoops (2 ^ 32 - 2) = some (last, before) ∧
    (last.getNextLoops 3).map Prod.snd = some [0, 0, 1] ∧ ¬ last.FairWindow := by
  have hne : three.threads ≠ [] := List.cons_ne_nil _ _
  obtain ⟨last, hcalls, hthreads, hlast⟩ := getNextLoops_eq hne (2 ^ 32 - 2)
  have hfirst : interlockedInc32 last.next = 2 ^ 32 - 1 := hlast.trans (by decide)
  have hlength : last.threads.length = 3 := by rw [hthreads]; rfl
  have hne' : last.threads ≠ [] := hthreads ▸ hne
  obtain ⟨behind, hwindow, -⟩ := getNextLoops_eq hne' 3
  refine ⟨last, _, hcalls, ?_, fun hfair => ?_⟩
  · have hplaces : places (2 ^ 32) 3 (2 ^ 32 - 1) 3 = [0, 0, 1] := by decide
    rw [hwindow, hfirst, hlength, hplaces, Option.map_some]
  · rw [fairWindow_iff hne', hfirst, hlength] at hfair
    omega

end EasyLib.Thread.EventLoopThreadPool
