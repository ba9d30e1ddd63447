import Mathlib.Data.List.Basic

/-!
Labelled machines. A machine is a partial step function; a run is the list of
labels it takes. A property of every run is proved from one step lemma, either
for all runs or for the runs whose every label is taken in a state that meets a
side condition.
-/

namespace Machine

variable {S L : Type*} (step : S → L → Option S)

def run : S → List L → Option S
  | s, [] => some s
  | s, l :: ls => (step s l).bind fun next => run next ls

theorem run_concat (s : S) (ls : List L) (l : L) :
    run step s (ls ++ [l]) = (run step s ls).bind (step · l) := by
  induction ls generalizing s with
  | nil => simp [run]
  | cons first ls ih =>
      simp only [List.cons_append, run, Option.bind_assoc]
      exact congrArg _ (funext ih)

/-- Every label of the run is taken in a state that meets `ok`. The run may
stop early: a label that is not enabled ends the obligation. -/
def Along (ok : S → L → Prop) : S → List L → Prop
  | _, [] => True
  | s, l :: ls => ok s l ∧
      match step s l with
      | none => True
      | some next => Along ok next ls

instance Along.decidable (ok : S → L → Prop) [∀ s l, Decidable (ok s l)] :
    ∀ s ls, Decidable (Along step ok s ls)
  | _, [] => isTrue trivial
  | s, l :: ls =>
      match h : step s l with
      | none => decidable_of_iff (ok s l) (by simp [Along, h])
      | some next =>
          have := Along.decidable ok next ls
          decidable_of_iff (ok s l ∧ Along step ok next ls) (by simp [Along, h])

/-- The states of the runs from `start` whose labels all meet `ok`. -/
inductive Reaches (ok : S → L → Prop) (start : S) : S → Prop where
  | refl : Reaches ok start start
  | step {s s' : S} {l : L} : Reaches ok start s → ok s l →
      step s l = some s' → Reaches ok start s'

/-- The states of all runs from `start`. -/
abbrev Reachable (start : S) : S → Prop :=
  Reaches step (fun _ _ => True) start

variable {step} {ok weaker : S → L → Prop} {start s s' : S}

theorem Reaches.trans (first : Reaches step ok start s)
    (second : Reaches step ok s s') : Reaches step ok start s' := by
  induction second with
  | refl => exact first
  | step _ hok hstep ih => exact .step ih hok hstep

theorem Reaches.mono (hweaker : ∀ s l, ok s l → weaker s l)
    (h : Reaches step ok start s) : Reaches step weaker start s := by
  induction h with
  | refl => exact .refl
  | step _ hok hstep ih => exact .step ih (hweaker _ _ hok) hstep

theorem Reaches.reachable (h : Reaches step ok start s) :
    Reachable step start s :=
  h.mono fun _ _ _ => trivial

/-- The invariant rule: a property of the first state that every conditioned
step from a reached state preserves holds in every state reached. -/
theorem Reaches.invariant (inv : S → Prop) (h : Reaches step ok start s) (hstart : inv start)
    (hstep : ∀ s l s', Reaches step ok start s → inv s → ok s l → step s l = some s' →
      inv s') :
    inv s := by
  induction h with
  | refl => exact hstart
  | step hprior hok htaken ih => exact hstep _ _ _ hprior ih hok htaken

/-- Side conditions that agree in every state that can be reached agree along
every run. -/
theorem along_iff (h : ∀ s l, Reachable step start s → (ok s l ↔ weaker s l)) (ls : List L) :
    Along step ok start ls ↔ Along step weaker start ls := by
  induction ls generalizing start with
  | nil => exact Iff.rfl
  | cons l ls ih =>
      simp only [Along, h start l .refl]
      cases hnext : step start l with
      | none => exact Iff.rfl
      | some next =>
          have hlater := ih fun s l hreached =>
            h s l ((Reaches.step .refl trivial hnext).trans hreached)
          exact and_congr_right fun _ => hlater

/-- A side condition along a run holds where the run has come to. -/
theorem Along.last {ls : List L} {l : L} {rest : List L}
    (h : Along step ok start (ls ++ l :: rest)) (hrun : run step start ls = some s) : ok s l := by
  induction ls generalizing start with
  | nil =>
      cases hrun
      exact h.1
  | cons first ls ih =>
      obtain ⟨next, hnext, hrest⟩ := Option.bind_eq_some_iff.mp hrun
      have htail := h.2
      simp only [hnext] at htail
      exact ih htail hrest

theorem reaches_of_run (ls : List L) (halong : Along step ok start ls)
    (hrun : run step start ls = some s) : Reaches step ok start s := by
  induction ls generalizing start with
  | nil =>
      cases hrun
      exact .refl
  | cons l ls ih =>
      obtain ⟨hok, htail⟩ := halong
      obtain ⟨next, hnext, hrest⟩ := Option.bind_eq_some_iff.mp hrun
      simp only [hnext] at htail
      exact (Reaches.step .refl hok hnext).trans (ih htail hrest)

theorem reachable_of_run (ls : List L) (hrun : run step start ls = some s) :
    Reachable step start s := by
  induction ls generalizing start with
  | nil =>
      cases hrun
      exact .refl
  | cons l ls ih =>
      obtain ⟨next, hnext, hrest⟩ := Option.bind_eq_some_iff.mp hrun
      exact (Reaches.step .refl trivial hnext).trans (ih hrest)

/-- A run that ends in a state with a decidable property is evidence that such
a state is reachable. -/
theorem exists_reachable (ls : List L) {p : S → Prop} (h : ∃ s ∈ run step start ls, p s) :
    ∃ s, Reachable step start s ∧ p s := by
  obtain ⟨s, hrun, hp⟩ := h
  exact ⟨s, reachable_of_run ls hrun, hp⟩

theorem exists_reaches (ls : List L) {p : S → Prop} (halong : Along step ok start ls)
    (h : ∃ s ∈ run step start ls, p s) : ∃ s, Reaches step ok start s ∧ p s := by
  obtain ⟨s, hrun, hp⟩ := h
  exact ⟨s, reaches_of_run ls halong hrun, hp⟩

end Machine
