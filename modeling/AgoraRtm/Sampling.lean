import Mathlib.Data.Nat.Count

/-!
# Samplers on a counter

A sampler moves a counter on and accepts where the new value has a remainder
below `kept`. In any `period` consultations it accepts `kept` times, wherever
the counter starts. A caller that consults it a second time before it writes
moves the counter on twice for each message; how many it then writes depends on
where the counter starts.
-/

set_option autoImplicit false

namespace Sampling

def Accepts (period kept n : ℕ) : Prop := n%period < kept

instance (period kept n : ℕ) : Decidable (Accepts period kept n) :=
  inferInstanceAs (Decidable (_ < _))

def accepted (period kept c n : ℕ) : ℕ := Nat.count (fun i => Accepts period kept (c+1+i)) n

/-- A call that writes where both of two consultations accept: how many messages
it writes, and the counter after it. -/
def twice (period kept c : ℕ) : ℕ × ℕ :=
  if Accepts period kept (c+1) then
    (if Accepts period kept (c+2) then 1 else 0, c+2)
  else (0, c+1)

def counter (period kept : ℕ) : ℕ → ℕ → ℕ
  | 0, c => c
  | n+1, c => counter period kept n (twice period kept c).2

def written (period kept : ℕ) : ℕ → ℕ → ℕ
  | 0, _ => 0
  | n+1, c => (twice period kept c).1+written period kept n (twice period kept c).2

def refusals (period kept n : ℕ) : ℕ := Nat.count (fun i => ¬ Accepts period kept (i+1)) n

variable {period kept : ℕ}

theorem accepts_add (n : ℕ) : Accepts period kept (n+period) ↔ Accepts period kept n := by
  simp [Accepts]

theorem count_periodic (p : ℕ → Prop) [DecidablePred p] (hp : ∀ n, p (n+period) ↔ p n) (c : ℕ) :
    Nat.count (fun i => p (c+i)) period = Nat.count p period := by
  induction c with
  | zero => simp
  | succ c ih =>
    have hback := Nat.count_succ (fun i => p (c+i)) period
    have hfront := Nat.count_succ' (fun i => p (c+i)) period
    have hnext : Nat.count (fun i => p (c+1+i)) period =
        Nat.count (fun i => p (c+(i+1))) period := by
      simp only [show ∀ i, c+1+i = c+(i+1) from fun i => by omega]
    simp only [hp, Nat.add_zero] at hback hfront
    omega

theorem count_accepts (h : kept ≤ period) : Nat.count (Accepts period kept) period = kept := by
  have hbelow : Nat.count (Accepts period kept) kept = kept := by
    rw [Nat.count_iff_forall]
    intro n hn
    rw [Accepts, Nat.mod_eq_of_lt (by omega)]
    exact hn
  have habove : Nat.count (fun i => Accepts period kept (kept+i)) (period-kept) = 0 := by
    rw [Nat.count_iff_forall_not]
    intro i hi
    rw [Accepts, Nat.mod_eq_of_lt (by omega)]
    omega
  calc Nat.count (Accepts period kept) period
      = Nat.count (Accepts period kept) (kept+(period-kept)) := by rw [Nat.add_sub_cancel' h]
    _ = kept := by rw [Nat.count_add, hbelow, habove, Nat.add_zero]

theorem accepted_window (h : kept ≤ period) (c : ℕ) : accepted period kept c period = kept := by
  rw [accepted, count_periodic (Accepts period kept) accepts_add, count_accepts h]

theorem accepted_succ (c n : ℕ) :
    accepted period kept c (n+1) =
      accepted period kept (c+1) n + if Accepts period kept (c+1) then 1 else 0 := by
  have hnext : (fun i => Accepts period kept (c+1+(i+1))) =
      fun i => Accepts period kept (c+1+1+i) := by
    funext i
    rw [show c+1+(i+1) = c+1+1+i by omega]
  rw [accepted, Nat.count_succ']
  simp only [hnext, Nat.add_zero, accepted]

theorem count_not (p : ℕ → Prop) [DecidablePred p] (n : ℕ) :
    Nat.count p n + Nat.count (fun i => ¬ p i) n = n := by
  induction n with
  | zero => rfl
  | succ n ih =>
    rw [Nat.count_succ, Nat.count_succ]
    by_cases h : p n
    · simp only [h, not_true_eq_false, if_true, if_false]
      omega
    · simp only [h, not_false_eq_true, if_true, if_false]
      omega

theorem refusals_add (m n : ℕ) :
    refusals period kept (m+n) =
      refusals period kept m + Nat.count (fun i => ¬ Accepts period kept (m+1+i)) n := by
  rw [refusals, Nat.count_add]
  simp only [refusals, show ∀ i, m+i+1 = m+1+i from fun i => by omega]

theorem refusals_window (h : kept ≤ period) (c : ℕ) :
    refusals period kept (c+period) = refusals period kept c + (period-kept) := by
  have hsplit := count_not (fun i => Accepts period kept (c+1+i)) period
  have hwindow := accepted_window h c
  rw [accepted] at hwindow
  rw [refusals_add]
  omega

theorem twice_write {c : ℕ} (h1 : Accepts period kept (c+1)) (h2 : Accepts period kept (c+2)) :
    twice period kept c = (1, c+2) := by
  simp [twice, h1, h2]

theorem twice_waste {c : ℕ} (h1 : Accepts period kept (c+1)) (h2 : ¬ Accepts period kept (c+2)) :
    twice period kept c = (0, c+2) := by
  simp [twice, h1, h2]

theorem twice_refuse {c : ℕ} (h1 : ¬ Accepts period kept (c+1)) :
    twice period kept c = (0, c+1) := by
  simp [twice, h1]

theorem refusals_accept {n : ℕ} (h : Accepts period kept (n+1)) :
    refusals period kept (n+1) = refusals period kept n := by
  simp [refusals, Nat.count_succ, h]

theorem refusals_refuse {n : ℕ} (h : ¬ Accepts period kept (n+1)) :
    refusals period kept (n+1) = refusals period kept n + 1 := by
  simp [refusals, Nat.count_succ, h]

/-- A call writes one message or meets one refusal. -/
theorem twice_refusals (c : ℕ) :
    (twice period kept c).1 + refusals period kept (twice period kept c).2 =
      refusals period kept c + 1 := by
  by_cases h1 : Accepts period kept (c+1)
  · by_cases h2 : Accepts period kept (c+2)
    · rw [twice_write h1 h2, refusals_accept h2, refusals_accept h1, Nat.add_comm]
    · rw [twice_waste h1 h2, refusals_refuse h2, refusals_accept h1, Nat.zero_add]
  · rw [twice_refuse h1, refusals_refuse h1, Nat.zero_add]

theorem twice_counter (c : ℕ) : c + 1 + (twice period kept c).1 ≤ (twice period kept c).2 := by
  by_cases h1 : Accepts period kept (c+1)
  · by_cases h2 : Accepts period kept (c+2)
    · rw [twice_write h1 h2]
      omega
    · rw [twice_waste h1 h2]
      omega
  · rw [twice_refuse h1]
    omega

theorem written_refusals (n c : ℕ) :
    written period kept n c + refusals period kept (counter period kept n c) =
      refusals period kept c + n := by
  induction n generalizing c with
  | zero => simp [written, counter]
  | succ n ih =>
    have hcall := @twice_refusals period kept c
    have hrest := ih (twice period kept c).2
    simp only [written, counter]
    omega

theorem counter_ge (n c : ℕ) : c + n + written period kept n c ≤ counter period kept n c := by
  induction n generalizing c with
  | zero => simp [written, counter]
  | succ n ih =>
    have hcall := @twice_counter period kept c
    have hrest := ih (twice period kept c).2
    simp only [written, counter]
    omega

theorem written_add (m n c : ℕ) :
    written period kept (m+n) c =
      written period kept m c + written period kept n (counter period kept m c) := by
  induction m generalizing c with
  | zero => simp [written, counter]
  | succ m ih => rw [Nat.succ_add, written, ih, written, counter, Nat.add_assoc]

theorem counter_add (m n c : ℕ) :
    counter period kept (m+n) c = counter period kept n (counter period kept m c) := by
  induction m generalizing c with
  | zero => simp [counter]
  | succ m ih => rw [Nat.succ_add, counter, ih, counter]

theorem written_succ (n c : ℕ) :
    written period kept (n+1) c =
      written period kept n c + (twice period kept (counter period kept n c)).1 :=
  written_add n 1 c

theorem counter_succ (n c : ℕ) :
    counter period kept (n+1) c = (twice period kept (counter period kept n c)).2 :=
  counter_add n 1 c

theorem written_all (h : 0 < period) (n c : ℕ) : written period period n c = n := by
  have hcalls := @written_refusals period period n c
  have hnone : ∀ m, refusals period period m = 0 := by
    intro m
    rw [refusals, Nat.count_iff_forall_not]
    intro i _
    simp [Accepts, Nat.mod_lt _ h]
  rw [hnone, hnone] at hcalls
  omega

section Aligned

variable {c : ℕ} (hc : (c+1)%period = 0)

include hc

theorem accepts_aligned {i : ℕ} (hi : i < period) : Accepts period kept (c+1+i) ↔ i < kept := by
  rw [Accepts, Nat.add_mod, hc, Nat.zero_add, Nat.mod_mod, Nat.mod_eq_of_lt hi]

theorem aligned_calls (h : kept ≤ period) (j : ℕ) (hj : 2*j ≤ kept) :
    counter period kept j c = c+2*j ∧ written period kept j c = j := by
  induction j with
  | zero => exact ⟨rfl, rfl⟩
  | succ j ih =>
    obtain ⟨hcounter, hwritten⟩ := ih (by omega)
    have h1 : Accepts period kept (c+2*j+1) := by
      rw [show c+2*j+1 = c+1+2*j by omega, accepts_aligned hc (by omega)]
      omega
    have h2 : Accepts period kept (c+2*j+2) := by
      rw [show c+2*j+2 = c+1+(2*j+1) by omega, accepts_aligned hc (by omega)]
      omega
    rw [counter_succ, written_succ, hcounter, hwritten, twice_write h1 h2]
    exact ⟨by omega, rfl⟩

theorem refused_calls (m : ℕ) (hm : m ≤ period-kept) :
    counter period kept m (c+kept) = c+kept+m ∧ written period kept m (c+kept) = 0 := by
  induction m with
  | zero => exact ⟨rfl, rfl⟩
  | succ m ih =>
    obtain ⟨hcounter, hwritten⟩ := ih (by omega)
    have h1 : ¬ Accepts period kept (c+kept+m+1) := by
      rw [show c+kept+m+1 = c+1+(kept+m) by omega, accepts_aligned hc (by omega)]
      omega
    rw [counter_succ, written_succ, hcounter, hwritten, twice_refuse h1]
    exact ⟨rfl, rfl⟩

/-- With an even number to keep, the calls of a period write half of it, are then
refused, and write the other half from the next period. -/
theorem written_aligned (h : kept ≤ period) (heven : 2 ∣ kept) :
    written period kept period c = kept := by
  obtain ⟨j, hj⟩ := heven
  have hnext : (c+period+1)%period = 0 := by
    rw [show c+period+1 = c+1+period by omega, Nat.add_mod_right, hc]
  obtain ⟨hcounter, hwritten⟩ := aligned_calls hc h j (by omega)
  obtain ⟨hcounter', hwritten'⟩ := @refused_calls period kept c hc (period-kept) (Nat.le_refl _)
  obtain ⟨-, hlast⟩ := aligned_calls (c := c+period) hnext h j (by omega)
  have hparts : written period kept (j+(period-kept)+j) c = j+0+j := by
    rw [written_add, written_add, counter_add, hcounter, hwritten, ← hj, hcounter', hwritten',
      show c+kept+(period-kept) = c+period by omega, hlast]
  rw [show j+(period-kept)+j = period by omega] at hparts
  omega

theorem odd_wastes (h : kept < period) (j : ℕ) (hj : kept = 2*j+1) :
    c + period + written period kept period c < counter period kept period c := by
  obtain ⟨hcounter, hwritten⟩ := aligned_calls hc (Nat.le_of_lt h) j (by omega)
  have h1 : Accepts period kept (c+2*j+1) := by
    rw [show c+2*j+1 = c+1+2*j by omega, accepts_aligned hc (by omega)]
    omega
  have h2 : ¬ Accepts period kept (c+2*j+2) := by
    rw [show c+2*j+2 = c+1+(2*j+1) by omega, accepts_aligned hc (by omega)]
    omega
  have hcall : counter period kept (j+1) c = c+2*j+2 ∧ written period kept (j+1) c = j := by
    rw [counter_succ, written_succ, hcounter, hwritten, twice_waste h1 h2]
    exact ⟨rfl, rfl⟩
  have hsplit : period = j+1+(period-j-1) := by omega
  have hrest := @counter_ge period kept (period-j-1) (c+2*j+2)
  have hw := @written_add period kept (j+1) (period-j-1) c
  have hk := @counter_add period kept (j+1) (period-j-1) c
  rw [← hsplit, hcall.1] at hw hk
  omega

end Aligned

theorem no_late_refusal (h : kept ≤ period) (c : ℕ) (hw : written period kept period c = kept)
    (i : ℕ) (hi : c+period+i < counter period kept period c) : Accepts period kept (c+1+i) := by
  have hcalls := @written_refusals period kept period c
  have hwindow := refusals_window h c
  obtain ⟨late, hlate⟩ : ∃ late, counter period kept period c = c+period+late :=
    Nat.exists_eq_add_of_le (by omega)
  have hrest := @refusals_add period kept (c+period) late
  have hnone : Nat.count (fun i => ¬ Accepts period kept (c+period+1+i)) late = 0 := by
    rw [hlate] at hcalls
    omega
  have haccept := (Nat.count_iff_forall_not.mp hnone) i (by omega)
  rw [not_not, show c+period+1+i = c+1+i+period by omega, accepts_add] at haccept
  exact haccept

theorem aligned_of_accepts (hlt : kept < period) (hpos : 0 < kept) (c : ℕ)
    (h : ∀ i < kept, Accepts period kept (c+1+i)) : (c+1)%period = 0 := by
  by_contra hne
  have hstart := h 0 hpos
  have hlast := h (kept-(c+1)%period) (by omega)
  simp only [Accepts, Nat.add_zero] at hstart hlast
  rw [Nat.add_mod, Nat.mod_eq_of_lt (by omega : kept-(c+1)%period < period),
    show (c+1)%period+(kept-(c+1)%period) = kept by omega, Nat.mod_eq_of_lt hlt] at hlast
  omega

/-- Any `period` calls write `kept` messages just if all are kept, or their number
is even and the first consultation meets a multiple of the period. -/
theorem written_iff (hpos : 0 < kept) (h : kept ≤ period) (c : ℕ) :
    written period kept period c = kept ↔
      kept = period ∨ 2 ∣ kept ∧ (c+1)%period = 0 := by
  constructor
  · intro hw
    rcases Nat.eq_or_lt_of_le h with heq | hlt
    · exact Or.inl heq
    · have hge := @counter_ge period kept period c
      have haligned : (c+1)%period = 0 := by
        apply aligned_of_accepts hlt hpos
        intro i hi
        exact no_late_refusal h c hw i (by omega)
      refine Or.inr ⟨?_, haligned⟩
      by_contra hodd
      have hwaste := odd_wastes haligned hlt (kept/2) (by omega)
      have hover := no_late_refusal h c hw kept (by omega)
      rw [accepts_aligned haligned hlt] at hover
      omega
  · rintro (rfl | ⟨heven, hc⟩)
    · exact written_all hpos kept c
    · exact written_aligned hc h heven

theorem next_window (hpos : 0 < kept) (h : kept < period) (c : ℕ)
    (hw : written period kept period c = kept) :
    written period kept period (counter period kept 1 c) ≠ kept := by
  intro hnext
  have hle : kept ≤ period := Nat.le_of_lt h
  rcases (written_iff hpos hle c).mp hw with heq | ⟨heven, hc⟩
  · omega
  · have hone := (aligned_calls hc hle 1 (by omega)).1
    rcases (written_iff hpos hle _).mp hnext with heq | ⟨-, hc'⟩
    · omega
    · rw [hone, show c+2*1+1 = c+1+2 by omega, Nat.add_mod, hc, Nat.zero_add, Nat.mod_mod,
        Nat.mod_eq_of_lt (by omega)] at hc'
      cases hc'

/-- All windows of a run of `n` calls write `kept` messages just if all are kept,
or the run is too short for a window, or it is one window as above. -/
theorem windows_iff (hpos : 0 < kept) (h : kept ≤ period) (n c : ℕ) :
    (∀ i, i+period ≤ n → written period kept period (counter period kept i c) = kept) ↔
      kept = period ∨ n < period ∨ n = period ∧ 2 ∣ kept ∧ (c+1)%period = 0 := by
  constructor
  · intro hall
    rcases Nat.eq_or_lt_of_le h with heq | hlt
    · exact Or.inl heq
    · rcases Nat.lt_trichotomy n period with hshort | hone | hlong
      · exact Or.inr (Or.inl hshort)
      · rcases (written_iff hpos h c).mp (hall 0 (by omega)) with heq | hwindow
        · exact Or.inl heq
        · exact Or.inr (Or.inr ⟨hone, hwindow⟩)
      · exact absurd (hall 1 (by omega)) (next_window hpos hlt c (hall 0 (by omega)))
  · rintro (rfl | hshort | ⟨rfl, hwindow⟩) i hi
    · exact written_all hpos _ _
    · omega
    · obtain rfl : i = 0 := by omega
      exact (written_iff hpos h c).mpr (Or.inr hwindow)

end Sampling
