import EasyLib.Common.Config

/-!
# Reloading a configuration

The map in use is never the one that `init` clears and fills, so a failed attempt changes no answer, at
whatever point it fails. What an `init` has loaded and the time that it notes down are two observations of
the file: between them the file must stay as it is, or the note is about a file that was not read.
-/

namespace EasyLib.Common.Config

variable {config : Config} {confCheck : StrMap → Bool} {file : Option Str} {content : Str}

/-! ### The map in use -/

def active (config : Config) : Option StrMap := config.idx.map config.confMap

theorem getConfStr_eq (config : Config) (key : Str) :
    config.getConfStr key = config.active.bind (· key) := by
  rw [getConfStr, active, Option.bind_map]
  rfl

theorem getConfInt_eq (config : Config) (key : Str) :
    config.getConfInt key = (config.active.bind (· key)).elim (-1) atol := by
  unfold getConfInt active
  cases config.idx with
  | none => rfl
  | some idx =>
      simp only [Option.map_some, Option.bind_some]
      cases config.confMap idx key <;> rfl

theorem answers_active (config : Config) : config.Answers config.active := fun key =>
  ⟨config.getConfStr_eq key, config.getConfInt_eq key⟩

theorem ne_newIdx {idx : Fin 2} (h : config.idx = some idx) : idx ≠ config.newIdx := by
  rintro rfl
  unfold newIdx at h
  split at h
  · rename_i hzero
    rw [hzero] at h
    cases h
  · rename_i hne
    exact hne h

theorem confMap_load_of_idx {idx : Fin 2} (h : config.idx = some idx) :
    (config.load content).confMap idx = config.confMap idx :=
  Function.update_of_ne (ne_newIdx h) ..

theorem confMap_load_newIdx :
    (config.load content).confMap (config.load content).newIdx = (parse content).1 :=
  Function.update_self ..

theorem active_load : (config.load content).active = config.active := by
  unfold active
  cases h : config.idx with
  | none =>
      have hload : (config.load content).idx = none := h
      rw [hload]
      rfl
  | some idx =>
      have hload : (config.load content).idx = some idx := h
      rw [hload, Option.map_some, confMap_load_of_idx h]
      rfl

theorem active_activate : config.activate.active = some (config.confMap config.newIdx) := rfl

theorem init_of_thrown (hparse : (parse content).2 = false) :
    config.init confCheck (some content) = (config.load content, none) := by
  simp [init, hparse]

theorem init_of_accepted (hparse : (parse content).2 = true)
    (hcheck : confCheck (parse content).1 = true) :
    config.init confCheck (some content) = ((config.load content).activate, some true) := by
  simp [init, hparse, hcheck]

theorem init_of_rejected (hparse : (parse content).2 = true)
    (hcheck : confCheck (parse content).1 = false) :
    config.init confCheck (some content) = (config.load content, some false) := by
  simp [init, hparse, hcheck]

/-- **What `init` leaves in use**, by the value that it returns. -/
theorem active_init (config : Config) (confCheck : StrMap → Bool) (file : Option Str) :
    (config.init confCheck file).1.active =
      if (config.init confCheck file).2 = some true then file.map fun content => (parse content).1
      else config.active := by
  cases file with
  | none => rfl
  | some content =>
      cases hparse : (parse content).2 with
      | false =>
          rw [init_of_thrown hparse]
          exact active_load
      | true =>
          cases hcheck : confCheck (parse content).1 with
          | false =>
              rw [init_of_rejected hparse hcheck]
              exact active_load
          | true =>
              rw [init_of_accepted hparse hcheck, active_activate, confMap_load_newIdx]
              rfl

/-! ### Several calls of `init` -/

theorem Session.step_inv {s next : Session} {call : InitCall} (h : s.config.active = s.loaded)
    (hstep : s.step call = some next) : next.config.active = next.loaded := by
  rw [← Option.some.inj hstep, active_init, h]

/-- **A failed `init` changes nothing.** After any calls the lookups answer from the file of the last
one that was successful, and a call that is not successful leaves every answer as it was. -/
theorem lookups_answer_from_loaded (calls : List InitCall) :
    Machine.Safe Session.step (fun s => s.config.Answers s.loaded) ⟨new, none⟩ calls ∧
      ∀ (config : Config) (call : InitCall) (key : Str),
        (config.init call.confCheck call.file).2 ≠ some true →
          (config.init call.confCheck call.file).1.getConfStr key = config.getConfStr key ∧
            (config.init call.confCheck call.file).1.getConfInt key = config.getConfInt key := by
  constructor
  · have hall : Machine.AllSteps Session.step (fun _ _ => True) ⟨new, none⟩ calls :=
      Machine.allSteps_of_forall (fun _ _ => trivial) _ calls
    apply Machine.safe_of_allSteps (fun s : Session => s.config.active = s.loaded) _ _ calls _ rfl hall
      hall
    · intro s h
      rw [← h]
      exact s.config.answers_active
    · intro s call h _ _
      exact ⟨_, rfl, Session.step_inv h rfl⟩
  · intro config call key hfailed
    have hactive := active_init config call.confCheck call.file
    rw [if_neg hfailed] at hactive
    constructor
    · rw [getConfStr_eq, getConfStr_eq, hactive]
    · rw [getConfInt_eq, getConfInt_eq, hactive]

/-! ### Hot reload -/

namespace Watch

variable {s next : Watch} {label : Label}

structure Inv (s : Watch) : Prop where
  noted : ∀ idx, s.config.idx = some idx →
    s.modifiedTime ≤ s.mtime ∧ (s.mtime ≤ s.modifiedTime → s.config.confMap idx = (parse s.content).1)
  opened : ∀ content, s.stage = .opened content → content = s.content
  filled : s.stage = .filled → s.config.confMap s.config.newIdx = (parse s.content).1

theorem start_inv (modifiedTime : Int) (content : Str) (mtime : Int) :
    (start modifiedTime content mtime).Inv where
  noted := by
    intro idx hidx
    cases hidx
  opened := by
    intro content hopened
    cases hopened
  filled := by
    intro hfilled
    cases hfilled

theorem Inv.upToDate (h : s.Inv) : s.UpToDate := fun _ idx hidx => (h.noted idx hidx).2

theorem Inv.replace {content : Str} {mtime : Int} (h : s.Inv) (hidle : ¬ s.InInit)
    (hnewer : s.mtime < mtime) : Inv { s with content, mtime } where
  noted := by
    intro idx hidx
    have hle := (h.noted idx hidx).1
    exact ⟨(hle.trans_lt hnewer).le, fun hnot => absurd hnot (by dsimp only; omega)⟩
  opened := by
    intro content hopened
    have hstage : s.stage = .opened content := hopened
    rw [InInit, hstage] at hidle
    exact absurd trivial hidle
  filled := by
    intro hfilled
    have hstage : s.stage = .filled := hfilled
    rw [InInit, hstage] at hidle
    exact absurd trivial hidle

/-- A step that leaves the file and the configuration alone. -/
theorem Inv.move {stage : Stage} (h : s.Inv)
    (hopened : ∀ content, stage = .opened content → content = s.content)
    (hfilled : stage ≠ .filled) : Inv { s with stage } :=
  ⟨h.noted, hopened, fun hstage => absurd hstage hfilled⟩

theorem Inv.read (h : s.Inv) :
    Inv { s with
      config := s.config.load s.content
      stage := if (parse s.content).2 then .filled else .idle } where
  noted := by
    intro idx hidx
    obtain ⟨hle, hmap⟩ := h.noted idx hidx
    refine ⟨hle, fun hnew => ?_⟩
    have hsame : (s.config.load s.content).confMap idx = s.config.confMap idx :=
      confMap_load_of_idx hidx
    exact hsame.trans (hmap hnew)
  opened := by
    intro content hstage
    dsimp only at hstage
    split_ifs at hstage
  filled := fun _ => confMap_load_newIdx

theorem step_inv (h : s.Inv) (hok : s.Undisturbed label) (hstep : s.step label = some next) :
    next.Inv := by
  cases label with
  | replace content mtime =>
      obtain ⟨hnewer, hnext⟩ := Option.ite_none_right_eq_some.mp hstep
      rw [← Option.some.inj hnext]
      exact h.replace hok hnewer
  | openFile =>
      obtain ⟨-, hnext⟩ := Option.ite_none_right_eq_some.mp hstep
      rw [← Option.some.inj hnext]
      apply h.move
      · intro content hopened
        exact (Stage.opened.inj hopened).symm
      · exact Stage.noConfusion
  | read =>
      simp only [step] at hstep
      split at hstep
      · rename_i content hopened
        obtain rfl : content = s.content := h.opened content hopened
        rw [← Option.some.inj hstep]
        exact h.read
      · cases hstep
  | stat =>
      obtain ⟨hfilled, hnext⟩ := Option.ite_none_right_eq_some.mp hstep
      rw [← Option.some.inj hnext]
      refine ⟨fun idx hidx => ⟨le_rfl, fun _ => ?_⟩, fun content hopened => ?_, fun hfilled => ?_⟩
      · obtain rfl := Option.some.inj hidx
        exact h.filled hfilled
      · cases hopened
      · cases hfilled
  | recheck =>
      obtain ⟨-, hnext⟩ := Option.ite_none_right_eq_some.mp hstep
      rw [← Option.some.inj hnext]
      apply h.move
      · intro content hopened
        cases hopened
      · exact Stage.noConfusion
  | compare =>
      simp only [step] at hstep
      split at hstep
      · rw [← Option.some.inj hstep]
        apply h.move
        · intro content hopened
          split_ifs at hopened
        · split_ifs <;> exact Stage.noConfusion
      · cases hstep

/-- **A file that is not newer than the note is the one that is loaded**, in every run in which it is not
replaced while an `init` is at work on it. -/
theorem upToDate_of_undisturbed (modifiedTime : Int) (content : Str) (mtime : Int) (labels : List Label)
    (h : Machine.AllSteps step Undisturbed (start modifiedTime content mtime) labels) :
    Machine.Throughout step UpToDate (start modifiedTime content mtime) labels :=
  Machine.throughout_of_allSteps Inv (fun _ => Inv.upToDate) (fun _ _ _ => step_inv) labels _
    (start_inv modifiedTime content mtime) h

theorem upToDate_after_recheck :
    Machine.Throughout step UpToDate (start 0 "a=1".toList 1)
      [.openFile, .read, .stat, .replace "a=2".toList 5, .recheck, .compare, .openFile, .read, .stat] :=
  upToDate_of_undisturbed _ _ _ _ (by decide)

/-- The file is replaced between the reading and the `stat`: the old content is loaded and noted down
with the time of the new one, so that no later comparison tells them apart. -/
theorem not_upToDate_of_replace :
    ∃ s, Machine.run step (start 0 "a=1".toList 1)
        [.openFile, .read, .replace "a=2".toList 5, .stat, .recheck, .compare] = some s ∧
      s.stage = .idle ∧ s.config.getConfStr "a".toList = some "1".toList ∧ ¬ s.UpToDate := by
  refine ⟨_, rfl, rfl, rfl, fun hupToDate => ?_⟩
  have hsame := congrFun (hupToDate (by decide) 0 rfl (by decide)) "a".toList
  exact absurd hsame (by decide)

end Watch

end EasyLib.Common.Config
