import Mathlib.Logic.Relation

/-!
# Runs of a partial step function

A machine is a function from a state and an action to an optional state. An
action is enabled where the result is a state. A run condition is a predicate
on the state before a step and on the action; it selects the runs a theorem
is about. The invariant and simulation rules are stated once for all of them.
-/

set_option autoImplicit false

namespace Runs

variable {S A T B : Type*}

def Step (step : S → A → Option S) (ok : S → A → Prop) (s t : S) : Prop :=
  ∃ a, ok s a ∧ step s a = some t

/-- The states in which some run from `s` ends all of whose steps meet `ok`.
Every state on the way is the end of a shorter such run. -/
def Reach (step : S → A → Option S) (ok : S → A → Prop) : S → S → Prop :=
  Relation.ReflTransGen (Step step ok)

def always (_ : S) (_ : A) : Prop := True

def run (step : S → A → Option S) (ok : S → A → Prop) [∀ s a, Decidable (ok s a)] :
    S → List A → Option S
  | s, [] => some s
  | s, a :: as => if ok s a then (step s a).bind fun t => run step ok t as else none

def final (step : S → A → Option S) (ok : S → A → Prop) [∀ s a, Decidable (ok s a)]
    (s : S) (as : List A) : S :=
  (run step ok s as).getD s

instance (s : S) (a : A) : Decidable (always s a) := inferInstanceAs (Decidable True)

variable {step : S → A → Option S} {ok : S → A → Prop}

theorem Reach.refl (s : S) : Reach step ok s s := Relation.ReflTransGen.refl

theorem Reach.trans {s t u : S} (h : Reach step ok s t) (h' : Reach step ok t u) :
    Reach step ok s u := Relation.ReflTransGen.trans h h'

theorem Reach.tail {s t u : S} {a : A} (h : Reach step ok s t) (ha : ok t a)
    (hs : step t a = some u) : Reach step ok s u :=
  Relation.ReflTransGen.tail h ⟨a, ha, hs⟩

theorem Reach.single {s t : S} {a : A} (ha : ok s a) (hs : step s a = some t) :
    Reach step ok s t := (Reach.refl s).tail ha hs

theorem Reach.mono {ok' : S → A → Prop} (himp : ∀ s a, ok s a → ok' s a) {s t : S}
    (h : Reach step ok s t) : Reach step ok' s t := by
  induction h with
  | refl => exact Reach.refl s
  | tail _ hst ih =>
    obtain ⟨a, ha, hs⟩ := hst
    exact ih.tail (himp _ a ha) hs

theorem Reach.weaken {s t : S} (h : Reach step ok s t) : Reach step always s t :=
  h.mono fun _ _ _ => trivial

theorem Reach.invariant {I : S → Prop} {s t : S} (h : Reach step ok s t) (h0 : I s)
    (hstep : ∀ s a t, I s → ok s a → step s a = some t → I t) : I t := by
  induction h with
  | refl => exact h0
  | tail _ hst ih =>
    obtain ⟨a, ha, hs⟩ := hst
    exact hstep _ a _ ih ha hs

theorem reach_of_run [∀ s a, Decidable (ok s a)] {s t : S} {as : List A}
    (h : run step ok s as = some t) : Reach step ok s t := by
  induction as generalizing s with
  | nil =>
    obtain rfl : s = t := by simpa [run] using h
    exact Reach.refl s
  | cons a as ih =>
    simp only [run] at h
    split at h
    · rename_i ha
      obtain ⟨u, hu, ht⟩ := Option.bind_eq_some_iff.mp h
      exact (Reach.single ha hu).trans (ih ht)
    · cases h

theorem reach_final [∀ s a, Decidable (ok s a)] {s : S} {as : List A}
    (h : (run step ok s as).isSome = true) : Reach step ok s (final step ok s as) := by
  obtain ⟨t, ht⟩ := Option.isSome_iff_exists.mp h
  rw [final, ht]
  exact reach_of_run ht

theorem run_append [∀ s a, Decidable (ok s a)] (s : S) (as bs : List A) :
    run step ok s (as ++ bs) = (run step ok s as).bind fun t => run step ok t bs := by
  induction as generalizing s with
  | nil => rfl
  | cons a as ih =>
    simp only [List.cons_append, run]
    split
    · rw [Option.bind_assoc]
      exact congrArg _ (funext fun t => ih t)
    · rfl

theorem run_cons_some [∀ s a, Decidable (ok s a)] {s u : S} {a : A} {as : List A}
    (h : run step ok s (a :: as) = some u) :
    ∃ t, ok s a ∧ step s a = some t ∧ run step ok t as = some u := by
  simp only [run] at h
  split at h
  · rename_i ha
    obtain ⟨t, ht, hu⟩ := Option.bind_eq_some_iff.mp h
    exact ⟨t, ha, ht, hu⟩
  · cases h

theorem reach_of_admitted [∀ s a, Decidable (ok s a)] {P : S → A → Prop} {s t : S} {as : List A}
    (h : run step ok s as = some t) (hok : ∀ a ∈ as, ∀ s, P s a) : Reach step P s t := by
  induction as generalizing s with
  | nil =>
    obtain rfl : s = t := by simpa [run] using h
    exact Reach.refl s
  | cons a as ih =>
    obtain ⟨u, -, hu, ht⟩ := run_cons_some h
    have hrest := ih ht fun b hb => hok b (by simp [hb])
    exact (Reach.single (hok a (by simp) s) hu).trans hrest

theorem run_invariant [∀ s a, Decidable (ok s a)] {I : S → Prop}
    (hinv : ∀ s a t, I s → step s a = some t → I t) {s t : S} {as : List A}
    (h : run step ok s as = some t) (h0 : I s) : I t :=
  (reach_of_run h).invariant h0 fun s a t hs _ ht => hinv s a t hs ht

/-- A property that a step keeps just if the step is admitted, and that no step
regains, holds at the end of a run just if all its steps are admitted. -/
theorem run_keeps_iff [∀ s a, Decidable (ok s a)] {I P : S → Prop}
    (hinv : ∀ s a t, I s → step s a = some t → I t)
    (hkeep : ∀ s a t, I s → P s → step s a = some t → (P t ↔ ok s a))
    (hlost : ∀ s a t, I s → ¬ P s → step s a = some t → ¬ P t)
    {s t : S} {as : List A} (h : run step always s as = some t) (hI : I s) (hP : P s) :
    P t ↔ run step ok s as = some t := by
  induction as generalizing s with
  | nil =>
    obtain rfl : s = t := by simpa [run] using h
    simp [run, hP]
  | cons a as ih =>
    simp only [run, always, ↓reduceIte] at h
    obtain ⟨u, hu, ht⟩ := Option.bind_eq_some_iff.mp h
    by_cases ha : ok s a
    · have hPu := (hkeep s a u hI hP hu).mpr ha
      simpa [run, ha, hu] using ih ht (hinv s a u hI hu) hPu
    · have hPu : ¬ P u := fun hPu => ha ((hkeep s a u hI hP hu).mp hPu)
      have hlast : I t ∧ ¬ P t := run_invariant (I := fun s => I s ∧ ¬ P s)
        (fun s a t hs ht => ⟨hinv s a t hs.1 ht, hlost s a t hs.1 hs.2 ht⟩) ht
        ⟨hinv s a u hI hu, hPu⟩
      simp [run, ha, hlast.2]

/-- Refinement: an abstraction function under which each concrete step is
matched by a finite run of the abstract machine, under an invariant. -/
theorem Reach.refine {stepT : T → B → Option T} {okT : T → B → Prop} {I : S → Prop}
    (f : S → T) {s t : S} (h : Reach step ok s t) (h0 : I s)
    (hinv : ∀ s a t, I s → ok s a → step s a = some t → I t)
    (hsim : ∀ s a t, I s → ok s a → step s a = some t → Reach stepT okT (f s) (f t)) :
    Reach stepT okT (f s) (f t) := by
  have hboth : I t ∧ Reach stepT okT (f s) (f t) :=
    h.invariant (I := fun u => I u ∧ Reach stepT okT (f s) (f u)) ⟨h0, Reach.refl _⟩
      fun u a v hu ha hs => ⟨hinv u a v hu.1 ha hs, hu.2.trans (hsim u a v hu.1 ha hs)⟩
  exact hboth.2

end Runs
