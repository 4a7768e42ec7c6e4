import EasyLib.Lib.Run
import Mathlib.Data.Nat.Notation

/-!
# What a machine can still do

`Leads ok post state` says that steps meeting `ok` can take the machine from `state` to where `post`
holds. As `ok` leaves out what the environment may or may not do (new calls, spurious wake-ups), it is
the form in which an interleaving is shown to be stuck nowhere: whatever has happened, those who are
in the middle of something can finish it by themselves.
-/

namespace EasyLib.Machine

variable {State Label : Type*} (step : State → Label → Option State)

def Leads (ok : State → Label → Prop) (post : State → Prop) (state : State) : Prop :=
  ∃ labels, Completes step ok post state labels

variable {step} {ok : State → Label → Prop} {middle post : State → Prop} {state next : State}

theorem Leads.refl (h : post state) : Leads step ok post state := ⟨[], h⟩

theorem Leads.head {label : Label} (hok : ok state label) (hstep : step state label = some next)
    (h : Leads step ok post next) : Leads step ok post state := by
  obtain ⟨labels, hlabels⟩ := h
  exact ⟨label :: labels, hok, next, hstep, hlabels⟩

theorem Leads.trans (h : Leads step ok middle state)
    (hmore : ∀ next, middle next → Leads step ok post next) : Leads step ok post state := by
  obtain ⟨labels, hlabels⟩ := h
  obtain ⟨last, hlast, hmiddle⟩ := hlabels.run
  obtain ⟨more, hpost⟩ := hmore last hmiddle
  exact ⟨labels ++ more, hlabels.append_of_run hlast hpost⟩

theorem Completes.imp {ok' : State → Label → Prop} {post' : State → Prop} {labels : List Label}
    (h : Completes step ok post state labels) (hok : ∀ state label, ok state label → ok' state label)
    (hpost : ∀ state, post state → post' state) : Completes step ok' post' state labels := by
  induction labels generalizing state with
  | nil => exact hpost state h
  | cons label labels ih =>
      obtain ⟨hlabel, next, hnext, hrest⟩ := h
      exact ⟨hok state label hlabel, next, hnext, ih hrest⟩

theorem Leads.imp {post' : State → Prop} (h : Leads step ok post state)
    (hpost : ∀ state, post state → post' state) : Leads step ok post' state := by
  obtain ⟨labels, hlabels⟩ := h
  exact ⟨labels, hlabels.imp (fun _ _ hok => hok) hpost⟩

/-- **The progress rule.** Where `post` does not hold yet, the invariant can be led to hold again with a
smaller measure. -/
theorem leads_of_measure (Inv : State → Prop) (measure : State → ℕ)
    (hstep : ∀ state, Inv state → ¬ post state →
      Leads step ok (fun next => Inv next ∧ measure next < measure state) state)
    (hinv : Inv state) : Leads step ok (fun last => Inv last ∧ post last) state := by
  induction hn : measure state using Nat.strongRecOn generalizing state with
  | ind n ih =>
      by_cases hpost : post state
      · exact .refl ⟨hinv, hpost⟩
      · refine (hstep state hinv hpost).trans ?_
        rintro next ⟨hnext, hlt⟩
        exact ih (measure next) (hn ▸ hlt) hnext rfl

end EasyLib.Machine
