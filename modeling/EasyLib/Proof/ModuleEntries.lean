import EasyLib.Frame.Modules
import EasyLib.Proof.Tokenizing

/-!
# The entries of `modulesConf_`

`CheckModules` and `WorkerRun` read the first two fields of every entry without looking at how many there
are. They are there in exactly the entries of the form `library:configuration`.
-/

namespace EasyLib.Frame

open Common Common.EasyString Tokens

variable {debug : Bool} {loader : Loader} {entry : Str} {entries : List Str}

/-- The length of every entry that `split` finds in `modulesConf_` is an `int`. -/
theorem modules_eq_some (modulesConf : Str) :
    ∃ entries, modules modulesConf = some entries ∧ ∀ entry ∈ entries, entry.length < 2 ^ 31 := by
  obtain ⟨pieces, hcut⟩ := exists_cut (List.cons_ne_nil ';' []) (visible modulesConf)
  refine ⟨trimLast pieces, splitInto_of_cut_visible hcut [], fun entry hentry => ?_⟩
  exact (hcut.length_piece_le entry (mem_of_mem_trimLast hentry)).trans_lt length_visible_lt

theorem two_fields_of_wellFormed (hlen : entry.length < 2 ^ 31) (h : WellFormed entry) :
    ∃ name conf rest, splitInto entry [':'] [] = some (name :: conf :: rest) := by
  obtain ⟨library, conf, rfl, hlibrary, hconf⟩ := h
  obtain ⟨fields, hfields⟩ := exists_cut (List.cons_ne_nil ':' []) conf
  obtain ⟨first, rest, hrest⟩ := List.exists_cons_of_ne_nil (hfields.trimLast_ne_nil hconf)
  have hcut := Cut.next (leftmost_singleton hlibrary) hfields
  refine ⟨library, first, rest, ?_⟩
  rw [← List.append_assoc] at hlen ⊢
  rw [splitInto_of_cut (List.cons_ne_nil _ _) hlen hcut, trimLast_cons hfields.ne_nil, hrest,
    List.nil_append]

theorem wellFormed_of_two_fields {name conf : Str} {rest : List Str} (hlen : entry.length < 2 ^ 31)
    (h : splitInto entry [':'] [] = some (name :: conf :: rest)) : WellFormed entry := by
  obtain ⟨fields, hfields⟩ := exists_cut (List.cons_ne_nil ':' []) entry
  rw [splitInto_of_cut (List.cons_ne_nil _ _) hlen hfields, List.nil_append] at h
  cases hfields with
  | last hnot =>
      cases entry <;> simp [trimLast] at h
  | @next piece back pieces hpiece hback =>
      rw [trimLast_cons hback.ne_nil] at h
      refine ⟨piece, back, List.append_assoc _ _ _, ?_, ?_⟩
      · intro hmem
        obtain ⟨front, behind, heq⟩ := List.append_of_mem hmem
        exact hpiece.not_contains (List.cons_ne_nil _ _) ⟨front, behind, by simp [heq]⟩
      · rintro rfl
        rw [hback.trimLast_eq_nil (List.cons_ne_nil _ _) rfl] at h
        cases h

theorem wellFormed_iff_two_fields (hlen : entry.length < 2 ^ 31) :
    WellFormed entry ↔ ∃ name conf rest, splitInto entry [':'] [] = some (name :: conf :: rest) :=
  ⟨two_fields_of_wellFormed hlen, fun ⟨_, _, _, hsplit⟩ => wellFormed_of_two_fields hlen hsplit⟩

theorem moduleName_of_wellFormed (debug : Bool) (hlen : entry.length < 2 ^ 31) (h : WellFormed entry) :
    ∃ name, moduleName debug entry = some name := by
  obtain ⟨name, conf, rest, hsplit⟩ := (wellFormed_iff_two_fields hlen).mp h
  exact ⟨name, by rw [moduleName, hsplit]⟩

theorem checkEntries_ne_undefined (hlen : ∀ entry ∈ entries, entry.length < 2 ^ 31)
    (h : ∀ entry ∈ entries, WellFormed entry) :
    checkEntries debug loader entries ≠ .undefined := by
  induction entries with
  | nil => simp [checkEntries]
  | cons entry entries ih =>
      obtain ⟨name, hname⟩ := moduleName_of_wellFormed debug (hlen entry List.mem_cons_self)
        (h entry List.mem_cons_self)
      simp only [checkEntries, hname]
      split
      · exact ih (fun later hlater => hlen later (List.mem_cons_of_mem _ hlater))
          fun later hlater => h later (List.mem_cons_of_mem _ hlater)
      · simp

theorem workerBody_ne_undefined {run : Ending} (hlen : entry.length < 2 ^ 31) (h : WellFormed entry)
    (hrun : run ≠ .undefined) : workerBody debug loader run entry ≠ .undefined := by
  obtain ⟨name, hname⟩ := moduleName_of_wellFormed debug hlen h
  simp only [workerBody, hname]
  split
  · exact hrun
  · simp

/-- A loader that finds every library, with both functions. -/
def anyLibrary : Loader := fun _ => some ⟨true, true⟩

theorem checkEntries_anyLibrary : checkEntries debug anyLibrary entries ≠ .failed := by
  induction entries with
  | nil => simp [checkEntries]
  | cons entry entries ih =>
      rw [checkEntries]
      split
      · simp
      · exact ih

/-- Whatever the libraries are, no field is read that is not there, and an entry that is not of the form
`library:configuration` is found. -/
def Checked (debug : Bool) (modulesConf : Str) (entries : List Str) : Prop :=
  ∀ loader,
    checkModules debug loader modulesConf ≠ .undefined ∧
    (∀ entry ∈ entries, ∀ run, run ≠ .undefined → workerBody debug loader run entry ≠ .undefined) ∧
    ((∃ entry ∈ entries, ¬ WellFormed entry) → checkModules debug loader modulesConf = .failed)

/-- Nothing looks for an entry that is not of that form: there must be none. -/
theorem checked_iff_wellFormed (debug : Bool) (modulesConf : Str) :
    ∃ entries, splitInto modulesConf [';'] [] = some entries ∧
      (∀ entry ∈ entries, entry.length < 2 ^ 31) ∧
      (Checked debug modulesConf entries ↔ ∀ entry ∈ entries, WellFormed entry) := by
  obtain ⟨entries, hentries, hlen⟩ := modules_eq_some modulesConf
  have hcheck (loader : Loader) :
      checkModules debug loader modulesConf = checkEntries debug loader entries := by
    rw [checkModules, hentries]
  refine ⟨entries, hentries, hlen, fun hchecked => ?_, fun hformed loader => ⟨?_, ?_, ?_⟩⟩
  · by_contra hmalformed
    push Not at hmalformed
    have hfailed := (hchecked anyLibrary).2.2 hmalformed
    rw [hcheck] at hfailed
    exact checkEntries_anyLibrary hfailed
  · rw [hcheck]
    exact checkEntries_ne_undefined hlen hformed
  · exact fun entry hentry run hrun => workerBody_ne_undefined (hlen entry hentry) (hformed entry hentry) hrun
  · rintro ⟨entry, hentry, hmalformed⟩
    exact absurd (hformed entry hentry) hmalformed

/-- A library without a configuration is read beyond its only field where debug messages are on and
passes where they are off; between two semicolons there is not even a first field. -/
theorem checkModules_malformed :
    checkModules true anyLibrary "lib.so".toList = .undefined ∧
    checkModules true anyLibrary "lib.so:".toList = .undefined ∧
    checkModules false anyLibrary "lib.so".toList = .passed ∧
    checkModules false anyLibrary "a:b;;c:d".toList = .undefined ∧
    workerBody true anyLibrary .stays "lib.so".toList = .undefined := by
  decide

end EasyLib.Frame
