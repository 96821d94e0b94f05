import AgoraRtm.Runs
import Mathlib.Algebra.BigOperators.Finprod
import Mathlib.Algebra.BigOperators.Group.Finset.Piecewise

/-!
# Runs that come to rest

A measure that every admitted step lowers bounds the length of the runs. From
each state some run then leads to one in which no admitted action is enabled,
and whatever holds in all of those is reached however the steps are ordered.
-/

set_option autoImplicit false

namespace Runs

variable {S A : Type*} {step : S → A → Option S} {ok : S → A → Prop}

def AtRest (step : S → A → Option S) (ok : S → A → Prop) (s : S) : Prop :=
  ∀ a, ok s a → step s a = none

def Lowers (step : S → A → Option S) (ok : S → A → Prop) (I : S → Prop) (f : S → ℕ) : Prop :=
  ∀ s a t, I s → ok s a → step s a = some t → I t ∧ f t < f s

variable {I : S → Prop} {f : S → ℕ}

theorem run_length_le [∀ s a, Decidable (ok s a)] (hf : Lowers step ok I f) {s t : S} {as : List A}
    (h : run step ok s as = some t) (h0 : I s) : as.length+f t ≤ f s := by
  induction as generalizing s with
  | nil =>
    obtain rfl : s = t := by simpa [run] using h
    simp
  | cons a as ih =>
    simp only [run] at h
    split at h
    · rename_i ha
      obtain ⟨u, hu, ht⟩ := Option.bind_eq_some_iff.mp h
      obtain ⟨hI, hlt⟩ := hf s a u h0 ha hu
      have hrest := ih ht hI
      rw [List.length_cons]
      omega
    · cases h

theorem exists_rest [∀ s a, Decidable (ok s a)] (hf : Lowers step ok I f) (s : S) (h0 : I s) :
    ∃ as t, run step ok s as = some t ∧ I t ∧ AtRest step ok t := by
  induction hn : f s using Nat.strongRecOn generalizing s with
  | ind n ih =>
    by_cases hrest : AtRest step ok s
    · exact ⟨[], s, rfl, h0, hrest⟩
    · obtain ⟨a, ha, hs⟩ : ∃ a, ok s a ∧ step s a ≠ none := by simpa [AtRest] using hrest
      obtain ⟨t, ht⟩ := Option.ne_none_iff_exists'.mp hs
      obtain ⟨hI, hlt⟩ := hf s a t h0 ha ht
      obtain ⟨as, u, hu, hIu, hu'⟩ := ih (f t) (hn ▸ hlt) t hI rfl
      exact ⟨a :: as, u, by simp [run, ha, ht, hu], hIu, hu'⟩

/-- The rule for liveness: runs are bounded by the measure, whatever holds at
rest under the invariant holds wherever a run cannot go on, and some run gets
there. -/
theorem comes_to_rest [∀ s a, Decidable (ok s a)] (hf : Lowers step ok I f) {P : S → Prop}
    (hrest : ∀ t, I t → AtRest step ok t → P t) (s : S) (h0 : I s) :
    (∀ as t, run step ok s as = some t → as.length ≤ f s) ∧
    (∀ t, Reach step ok s t → AtRest step ok t → P t) ∧
    ∃ as t, run step ok s as = some t ∧ P t := by
  refine ⟨?_, ?_, ?_⟩
  · intro as t h
    exact Nat.le_of_add_right_le (run_length_le hf h h0)
  · intro t h ht
    exact hrest t (h.invariant h0 fun s a t hs ha hst => (hf s a t hs ha hst).1) ht
  · obtain ⟨as, t, h, hI, ht⟩ := exists_rest hf s h0
    exact ⟨as, t, h, hrest t hI ht⟩

section Sums

variable {α : Type*} [DecidableEq α]

theorem sum_update (l : Finset α) (f : α → ℕ) (i : α) (hi : i ∈ l) (b : ℕ) :
    l.sum (Function.update f i b)+f i = l.sum f+b := by
  rw [Finset.sum_update_of_mem hi, Finset.sum_eq_add_sum_sdiff_singleton_of_mem hi f]
  omega

theorem support_update (f : α → ℕ) (i : α) (b : ℕ) :
    (Function.update f i b).support ⊆ insert i f.support := by
  intro j hj
  by_cases hji : j = i
  · exact Or.inl hji
  · rw [Function.mem_support, Function.update_of_ne hji] at hj
    exact Or.inr hj

theorem finsum_update (f : α → ℕ) (hf : f.support.Finite) (i : α) (b : ℕ) :
    finsum (Function.update f i b)+f i = finsum f+b := by
  have hold : f.support ⊆ ↑(insert i hf.toFinset) := by
    intro j hj
    simp only [Finset.coe_insert, Set.Finite.coe_toFinset]
    exact Or.inr hj
  have hnew : (Function.update f i b).support ⊆ ↑(insert i hf.toFinset) := by
    simp only [Finset.coe_insert, Set.Finite.coe_toFinset]
    exact support_update f i b
  rw [finsum_eq_sum_of_support_subset _ hold, finsum_eq_sum_of_support_subset _ hnew]
  exact sum_update _ f i (Finset.mem_insert_self i _) b

end Sums

end Runs
