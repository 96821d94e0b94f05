import AgoraRtm.Runs

/-!
# Noninterference by unwinding

Some steps of a machine are visible to an observer. If invisible steps keep the
observer's view of the state, and a visible step leads from states of one view
to states of one view, then two runs with the same visible steps show the
observer the same, whatever the invisible steps between them.
-/

set_option autoImplicit false

namespace Runs

variable {S A β : Type*}

def outputs (step : S → A → Option S) (f : S → A → S → List β) : S → List A → List β
  | _, [] => []
  | s, a :: as =>
    match step s a with
    | none => []
    | some t => f s a t ++ outputs step f t as

def visible (step : S → A → Option S) (vis : S → A → Prop) [∀ s a, Decidable (vis s a)] :
    S → List A → List A :=
  outputs step fun s a _ => if vis s a then [a] else []

theorem outputs_cons {step : S → A → Option S} {s t : S} {a : A} (h : step s a = some t)
    (f : S → A → S → List β) (as : List A) :
    outputs step f s (a :: as) = f s a t ++ outputs step f t as := by
  simp [outputs, h]

theorem run_cons {step : S → A → Option S} {s t : S} {a : A} {as : List A}
    (h : run step always s (a :: as) = some t) :
    ∃ u, step s a = some u ∧ run step always u as = some t := by
  simpa [run, always, Option.bind_eq_some_iff] using h

/-- `View` relates the states that look alike to the observer. -/
structure Unwinding (step : S → A → Option S) (I : S → Prop) (View : S → S → Prop)
    (vis : S → A → Prop) : Prop where
  inv : ∀ s a t, I s → step s a = some t → I t
  symm : ∀ s u, View s u → View u s
  quiet : ∀ s a t u, I s → View s u → ¬ vis s a → step s a = some t → View t u
  sync : ∀ s a t u v, I s → I u → View s u → vis s a → vis u a → step s a = some t →
    step u a = some v → View t v

structure Observed (step : S → A → Option S) (I : S → Prop) (View : S → S → Prop)
    (vis : S → A → Prop) (f : S → A → S → List β) : Prop where
  quiet : ∀ s a t, I s → ¬ vis s a → step s a = some t → f s a t = []
  sync : ∀ s a t u v, I s → I u → View s u → vis s a → vis u a → step s a = some t →
    step u a = some v → f s a t = f u a v

section Noninterference

variable {step : S → A → Option S} {I : S → Prop} {View : S → S → Prop} {vis : S → A → Prop}
  [∀ s a, Decidable (vis s a)] {f : S → A → S → List β}

theorem visible_cons {s t : S} {a : A} (h : step s a = some t) (as : List A) :
    visible step vis s (a :: as) = (if vis s a then [a] else []) ++ visible step vis t as :=
  outputs_cons h _ as

theorem Unwinding.silent (h : Unwinding step I View vis) (hf : Observed step I View vis f)
    {s s' u : S} {as : List A} (hs : run step always s as = some s') (hI : I s) (hv : View s u)
    (hnone : visible step vis s as = []) : View s' u ∧ outputs step f s as = [] := by
  induction as generalizing s with
  | nil =>
    obtain rfl : s = s' := by simpa [run] using hs
    exact ⟨hv, rfl⟩
  | cons a as ih =>
    obtain ⟨t, ht, hrest⟩ := run_cons hs
    rw [visible_cons ht] at hnone
    obtain ⟨ha, htail⟩ := List.append_eq_nil_iff.mp hnone
    have hquiet : ¬ vis s a := fun hvis => by simp [hvis] at ha
    have hkeep := ih hrest (h.inv s a t hI ht) (h.quiet s a t u hI hv hquiet ht) htail
    rw [outputs_cons ht, hf.quiet s a t hI hquiet ht, hkeep.2]
    exact ⟨hkeep.1, rfl⟩

theorem Unwinding.skip (h : Unwinding step I View vis) (hf : Observed step I View vis f)
    {s s' u : S} {as : List A} {a : A} {rest : List A} (hs : run step always s as = some s')
    (hI : I s) (hv : View s u) (hsome : visible step vis s as = a :: rest) :
    ∃ t t' as', I t ∧ View t u ∧ vis t a ∧ step t a = some t' ∧
      run step always t' as' = some s' ∧ visible step vis t' as' = rest ∧
      outputs step f s as = f t a t' ++ outputs step f t' as' := by
  induction as generalizing s with
  | nil => cases hsome
  | cons b as ih =>
    obtain ⟨t, ht, hrest⟩ := run_cons hs
    rw [visible_cons ht] at hsome
    by_cases hvis : vis s b
    · simp only [hvis, ↓reduceIte, List.singleton_append, List.cons.injEq] at hsome
      obtain ⟨rfl, hrest'⟩ := hsome
      exact ⟨s, t, as, hI, hv, hvis, ht, hrest, hrest', outputs_cons ht f as⟩
    · simp only [hvis, ↓reduceIte, List.nil_append] at hsome
      rw [outputs_cons ht, hf.quiet s b t hI hvis ht, List.nil_append]
      exact ih hrest (h.inv s b t hI ht) (h.quiet s b t u hI hv hvis ht) hsome

/-- Two runs with the same visible steps put out the same and end in states of
one view. -/
theorem Unwinding.noninterference (h : Unwinding step I View vis)
    (hf : Observed step I View vis f) {s s' u u' : S} {as bs : List A}
    (hs : run step always s as = some s') (hu : run step always u bs = some u') (hI : I s)
    (hJ : I u) (hv : View s u) (hsame : visible step vis s as = visible step vis u bs) :
    View s' u' ∧ outputs step f s as = outputs step f u bs := by
  generalize hvis : visible step vis s as = trace at hsame
  induction trace generalizing s u as bs with
  | nil =>
    obtain ⟨hv', hs'⟩ := h.silent hf hs hI hv hvis
    obtain ⟨hv'', hu'⟩ := h.silent hf hu hJ (h.symm _ _ hv') hsame.symm
    exact ⟨h.symm _ _ hv'', by rw [hs', hu']⟩
  | cons a trace ih =>
    obtain ⟨t, t', as', hIt, hvt, hat, ht, hs', hrest, hout⟩ := h.skip hf hs hI hv hvis
    obtain ⟨w, w', bs', hIw, hvw, haw, hw, hu', hrest', hout'⟩ :=
      h.skip hf hu hJ (h.symm _ _ hvt) hsame.symm
    have hvtw : View t w := h.symm _ _ hvw
    have hnext := ih hs' hu' (h.inv t a t' hIt ht) (h.inv w a w' hIw hw)
      (h.sync t a t' w w' hIt hIw hvtw hat haw ht hw) hrest hrest'.symm
    rw [hout, hout', hf.sync t a t' w w' hIt hIw hvtw hat haw ht hw, hnext.2]
    exact ⟨hnext.1, rfl⟩

end Noninterference

end Runs
