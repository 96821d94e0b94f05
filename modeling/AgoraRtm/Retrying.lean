import AgoraRtm.Overlap
import Mathlib.Order.Interval.Finset.Nat

/-!
# Trying again

A call that finds its key locked is refused, and its catch block opens the key all
the same. A client that makes its calls of a method one by one profits from that:
whatever has happened before, failures and overlaps included, the call after a
refused one gets through to the native method.
-/

set_option autoImplicit false

namespace AgoraRtm.Adapter
open Runs OnceTable NativeEvents

variable {c : JsClass}

/-- No call of the method is made before the turn of the last one is over, be its
promise settled or not. -/
def OneByOne (m : Method c) (s : Obj c) : Action c → Prop
  | .call m' => m' = m → ∀ n < s.issued m, (s.calls (m, n)).phase = .done
  | _ => True

instance (m : Method c) (s : Obj c) : (a : Action c) → Decidable (OneByOne m s a)
  | .call m' => inferInstanceAs
    (Decidable (m' = m → ∀ n < s.issued m, (s.calls (m, n)).phase = .done))
  | .timer _ | .resume _ _ | .register | .emit _ _ => inferInstanceAs (Decidable True)

def Refused (s : Obj c) (i : Id c) : Prop :=
  (s.calls i).phase = .done ∧ (s.calls i).invoked = 0

instance (s : Obj c) (i : Id c) : Decidable (Refused s i) := inferInstanceAs (Decidable (_ ∧ _))

/-- What a client sees of a refusal. -/
def Told (s : Obj c) : Prop :=
  ∀ i, Refused s i → (s.calls i).promise = .rejected (.error (i.1.key ++ " has been locked"))

theorem Told.setCall {s t : Obj c} (h : Told s) (i : Id c)
    (hi : Refused t i → (t.calls i).promise = .rejected (.error (i.1.key ++ " has been locked")))
    (hother : ∀ j, j ≠ i → t.calls j = s.calls j) : Told t := by
  intro j hj
  by_cases hji : j = i
  · subst hji
    exact hi hj
  · rw [Refused, hother j hji] at hj
    rw [hother j hji]
    exact h j hj

theorem step_told {s t : Obj c} {a : Action c} (hsane : Sane s) (h : Told s)
    (hs : step s a = some t) : Told t := by
  cases a with
  | call m =>
    obtain ⟨-, rfl⟩ := step_call hs
    apply h.setCall (m, s.issued m)
    · rintro ⟨hp, -⟩
      simp [Obj.issue] at hp
    · exact fun j hj => Obj.setCall_other _ _ _ _ hj
  | timer i =>
    obtain ⟨-, -, rfl⟩ := step_timer hs
    apply h.setCall i
    · rintro ⟨hp, -⟩
      rcases waited_cases s i with ⟨-, hw⟩ | ⟨-, message, hw⟩ <;> simp [hw] at hp
    · exact fun j hj => Obj.setCall_other _ _ _ _ hj
  | resume i r =>
    rcases hsane.resume_cases i r (step_resume hs).2 with ⟨err, -, -, rfl⟩ | ⟨-, -, rfl⟩ |
      ⟨message, hp, rfl⟩
    · apply h.setCall i
      · rintro ⟨-, hzero⟩
        simp at hzero
      · exact fun j hj => Obj.setCall_other _ _ _ _ hj
    · apply h.setCall i
      · rintro ⟨-, hzero⟩
        simp [Obj.inTurn] at hzero
      · exact fun j hj => Obj.setCall_other _ _ _ _ hj
    · apply h.setCall i
      · intro _
        rw [Obj.setCall_same, (hsane.refused i message hp).1]
      · exact fun j hj => Obj.setCall_other _ _ _ _ hj
  | register =>
    obtain ⟨i, -, rfl⟩ := step_register hs
    exact h
  | emit event args =>
    obtain ⟨-, rfl⟩ := step_emit hs
    intro i hi
    have hold : Refused s i := by
      rw [Refused, Obj.emit_call] at hi
      exact hi
    have htold := h i hold
    rw [Obj.emit_settled s event args i (by simp [htold])]
    exact htold

theorem reach_told {ok : Obj c → Action c → Prop} {s : Obj c} (h : Reach step ok (init c) s) :
    Told s := by
  have hboth : Sane s ∧ Told s := by
    apply h.invariant (I := fun s => Sane s ∧ Told s)
    · exact ⟨init_sane, fun i hi => by cases hi.1⟩
    · intro s a t hs _ ht
      exact ⟨step_sane s a t hs.1 ht, step_told hs.1 hs.2 ht⟩
  exact hboth.2

def Through (s : Obj c) (i : Id c) : Prop :=
  match (s.calls i).phase with
  | .unissued => ¬ s.Locked i.1
  | .waiting => ¬ s.Locked i.1
  | .passed => True
  | .refused _ => False
  | .done => 0 < (s.calls i).invoked

/-- All calls but the last are over, and from `start` on the call after a refused one
gets through. -/
structure Retrying (m : Method c) (start : ℕ) (s : Obj c) : Prop where
  ended : ∀ n, n+1 < s.issued m → (s.calls (m, n)).phase = .done
  after : ∀ n, start ≤ n → Refused s (m, n) → Through s (m, n+1)

section Steps

variable {m : Method c} {start : ℕ} {s t : Obj c}

theorem through_same {i : Id c} (hphase : (t.calls i).phase = (s.calls i).phase)
    (hinvoked : (t.calls i).invoked = (s.calls i).invoked) (hlocked : t.Locked i.1 → s.Locked i.1)
    (h : Through s i) : Through t i := by
  unfold Through at h ⊢
  rw [hphase, hinvoked]
  split at h
  · exact fun hl => h (hlocked hl)
  · exact fun hl => h (hlocked hl)
  · trivial
  · exact h
  · exact h

theorem Retrying.same (h : Retrying m start s) (hissued : t.issued m = s.issued m)
    (hphase : ∀ n, (t.calls (m, n)).phase = (s.calls (m, n)).phase)
    (hinvoked : ∀ n, (t.calls (m, n)).invoked = (s.calls (m, n)).invoked)
    (hlocked : t.Locked m → s.Locked m) : Retrying m start t := by
  constructor
  · intro n hn
    rw [hphase]
    exact h.ended n (hissued ▸ hn)
  · intro n hn href
    rw [Refused, hphase, hinvoked] at href
    exact through_same (hphase (n+1)) (hinvoked (n+1)) hlocked (h.after n hn href)

theorem Retrying.moved (h : Retrying m start s) (hsane : Sane t) (k : ℕ)
    (hissued : t.issued m = k+1) (hover : ∀ n < k, (s.calls (m, n)).phase = .done)
    (hother : ∀ n, n ≠ k → t.calls (m, n) = s.calls (m, n))
    (hself : Through s (m, k) → Through t (m, k)) (hopen : Refused t (m, k) → ¬ t.Locked m) :
    Retrying m start t := by
  constructor
  · intro n hn
    have hlt : n < k := by omega
    rw [hother n (Nat.ne_of_lt hlt)]
    exact hover n hlt
  · intro n hn href
    rcases Nat.lt_trichotomy n k with hlt | rfl | hgt
    · have hold : Refused s (m, n) := by
        rw [Refused, hother n (Nat.ne_of_lt hlt)] at href
        exact href
      have hthrough := h.after n hn hold
      by_cases hnext : n+1 = k
      · rw [hnext] at hthrough ⊢
        exact hself hthrough
      · -- a call in between is over, and the key is nothing to it
        have hdone := hover (n+1) (by omega)
        simp only [Through, hdone, hother (n+1) hnext] at hthrough ⊢
        exact hthrough
    · have hfresh := hsane.fresh m (n+1) (Nat.le_of_eq hissued)
      simp only [Through, hfresh]
      exact hopen href
    · have hfresh := hsane.fresh m n (by omega)
      rw [Refused, hfresh] at href
      cases href.1

theorem Retrying.last (h : Retrying m start s) (hsane : Sane s) {n : ℕ}
    (hissued : (s.calls (m, n)).phase ≠ .unissued) (hdone : (s.calls (m, n)).phase ≠ .done) :
    s.issued m = n+1 ∧ ∀ k < n, (s.calls (m, k)).phase = .done := by
  have hlt : n < s.issued m := hsane.issued_of_phase (m, n) hissued
  have hlast : s.issued m = n+1 := by
    have hle : ¬ n+1 < s.issued m := fun hn => hdone (h.ended n hn)
    omega
  exact ⟨hlast, fun k hk => h.ended k (by omega)⟩

theorem Retrying.resume (h : Retrying m start s) (hsane : Sane s) {n : ℕ} {r : Native}
    (hs : step s (.resume (m, n) r) = some t) : Retrying m start t := by
  have hres := (step_resume hs).2
  have hsane' := step_sane s _ t hsane hs
  have hphase : (s.calls (m, n)).phase ≠ .unissued := by
    intro hp
    simp [Obj.resume, hp] at hres
  obtain ⟨hlast, hover⟩ := h.last hsane hphase (resume_not_done hres)
  rcases hsane.resume_cases (m, n) r hres with ⟨err, -, -, rfl⟩ | ⟨-, -, rfl⟩ | ⟨message, hp, rfl⟩
  · apply h.moved hsane' n hlast hover
    · exact fun k hk => Obj.setCall_other _ _ _ _ (by simpa using hk)
    · intro _
      simp [Through]
    · rintro ⟨-, hzero⟩
      simp at hzero
  · apply h.moved hsane' n hlast hover
    · exact fun k hk => Obj.setCall_other _ _ _ _ (by simpa using hk)
    · intro _
      simp [Through, Obj.inTurn]
    · rintro ⟨-, hzero⟩
      simp [Obj.inTurn] at hzero
  · apply h.moved hsane' n hlast hover
    · exact fun k hk => Obj.setCall_other _ _ _ _ (by simpa using hk)
    · intro hthrough
      simp only [Through, hp] at hthrough
    · intro _
      rw [locked_unlock rfl]
      simp

theorem step_retrying {a : Action c} (h : Retrying m start s) (hsane : Sane s)
    (ha : OneByOne m s a) (hs : step s a = some t) : Retrying m start t := by
  have hsane' := step_sane s a t hsane hs
  by_cases htouch : Touches m a
  · cases a with
    | call m' =>
      obtain rfl : m' = m := htouch
      obtain ⟨-, rfl⟩ := step_call hs
      apply h.moved hsane' (s.issued m') (by simp [Obj.issue]) (ha rfl)
      · exact fun k hk => Obj.setCall_other _ _ _ _ (by simpa using hk)
      · intro hthrough
        simp only [Through, hsane.fresh m' _ (Nat.le_refl _)] at hthrough
        have hwaiting : ((s.issue m').calls (m', s.issued m')).phase = .waiting := by
          simp [Obj.issue]
        simp only [Through, hwaiting]
        exact hthrough
      · rintro ⟨hp, -⟩
        simp [Obj.issue] at hp
    | timer i =>
      obtain ⟨m', n⟩ := i
      obtain rfl : m' = m := htouch
      obtain ⟨-, hw, rfl⟩ := step_timer hs
      obtain ⟨hlast, hover⟩ := h.last (n := n) hsane (by simp [hw]) (by simp [hw])
      apply h.moved hsane' n hlast hover
      · exact fun k hk => Obj.setCall_other _ _ _ _ (by simpa using hk)
      · intro hthrough
        simp only [Through, hw] at hthrough
        rcases waited_cases s (m', n) with ⟨-, hpassed⟩ | ⟨hl, -⟩
        · simp [Through, hpassed]
        · exact absurd hl hthrough
      · rintro ⟨hp, -⟩
        rcases waited_cases s (m', n) with ⟨-, hpassed⟩ | ⟨-, message, hrefused⟩
        · simp [hpassed] at hp
        · simp [hrefused] at hp
    | resume i r =>
      obtain ⟨m', n⟩ := i
      obtain rfl : m' = m := htouch
      exact h.resume hsane hs
    | register => exact htouch.elim
    | emit event args =>
      obtain ⟨hrun, rfl⟩ := step_emit hs
      apply h.same
      · rw [Obj.emit_issued]
      · exact fun n => by rw [Obj.emit_call]
      · exact fun n => by rw [Obj.emit_call]
      · exact fun hl => (hsane.emit_locked hrun event args m hl).1
  · have haside := hsane.step_aside m htouch hs
    apply h.same haside.issued
    · exact fun n => by rw [haside.calls n]
    · exact fun n => by rw [haside.calls n]
    · exact (locked_congr haside.lockers).mp

end Steps

def refusedFrom (s : Obj c) (m : Method c) (start : ℕ) : Finset ℕ :=
  (Finset.Ico start (s.issued m)).filter fun n => Refused s (m, n)

def enteredFrom (s : Obj c) (m : Method c) (start : ℕ) : Finset ℕ :=
  (Finset.Ico start (s.issued m)).filter fun n => 0 < (s.calls (m, n)).invoked

theorem Retrying.second {m : Method c} {start : ℕ} {s : Obj c} (h : Retrying m start s) {n : ℕ}
    (hn : start ≤ n) (href : Refused s (m, n)) : ¬ Refused s (m, n+1) := by
  rintro ⟨hdone, hzero⟩
  have hthrough := h.after n hn href
  simp only [Through, hdone] at hthrough
  omega

theorem Retrying.refused_le {m : Method c} {start : ℕ} {s : Obj c} (h : Retrying m start s) :
    (refusedFrom s m start).card ≤ (enteredFrom s m start).card+1 := by
  have hbefore : ((refusedFrom s m start).erase start).card ≤ (enteredFrom s m start).card := by
    apply Finset.card_le_card_of_injOn fun n => n-1
    · intro n hn
      obtain ⟨hne, hmem⟩ := Finset.mem_erase.mp hn
      obtain ⟨hrange, href⟩ := Finset.mem_filter.mp hmem
      obtain ⟨hle, hlt⟩ := Finset.mem_Ico.mp hrange
      obtain ⟨k, rfl⟩ : ∃ k, n = k+1 := ⟨n-1, by omega⟩
      have hnot : ¬ Refused s (m, k) := fun hk => h.second (by omega) hk href
      have hdone := h.ended k hlt
      simp only [Refused, hdone, true_and] at hnot
      show k ∈ enteredFrom s m start
      have hwithin : k ∈ Finset.Ico start (s.issued m) := Finset.mem_Ico.mpr (by omega)
      exact Finset.mem_filter.mpr ⟨hwithin, Nat.pos_of_ne_zero hnot⟩
    · intro a ha b hb hab
      have ha' := (Finset.mem_erase.mp ha).1
      have hb' := (Finset.mem_erase.mp hb).1
      have hla := (Finset.mem_Ico.mp (Finset.mem_filter.mp (Finset.mem_erase.mp ha).2).1).1
      have hlb := (Finset.mem_Ico.mp (Finset.mem_filter.mp (Finset.mem_erase.mp hb).2).1).1
      simp only at hab
      omega
  have herase := Finset.pred_card_le_card_erase (s := refusedFrom s m start) (a := start)
  omega

/-- From any state whatever, with its key locked for good or its calls overlapping: a
client that makes its calls of a method one by one from there on has no two of them
refused in a row, so they are at most one more than those that get to the native
method. What it sees of a refused one is the message of `wait`. -/
theorem retries_get_through (m : Method c) (s : Obj c) (h : Reach step always (init c) s)
    (hover : ∀ n < s.issued m, (s.calls (m, n)).phase = .done) (t : Obj c)
    (ht : Reach step (OneByOne m) s t) :
    (∀ n, Refused t (m, n) →
      (t.calls (m, n)).promise = .rejected (.error (m.key ++ " has been locked"))) ∧
    (∀ n, s.issued m ≤ n → Refused t (m, n) → ¬ Refused t (m, n+1)) ∧
    (refusedFrom t m (s.issued m)).card ≤ (enteredFrom t m (s.issued m)).card+1 := by
  have hretrying : Sane t ∧ Retrying m (s.issued m) t := by
    apply ht.invariant (I := fun u => Sane u ∧ Retrying m (s.issued m) u)
    · refine ⟨reach_sane h, fun n hn => hover n (by omega), ?_⟩
      intro n hn href
      rw [Refused, (reach_sane h).fresh m n hn] at href
      cases href.1
    · intro u a v hu ha hs
      exact ⟨step_sane u a v hu.1 hs, step_retrying hu.2 hu.1 ha hs⟩
  refine ⟨?_, fun n hn href => hretrying.2.second hn href, hretrying.2.refused_le⟩
  intro n href
  exact reach_told (h.trans ht.weaken) (m, n) href

-- A login that fails by its return code and leaves its key locked.
def wedgedLogin : Obj .AgoraRtmSDK :=
  final step always (init .AgoraRtmSDK)
    [.call .login, .timer (.login, 0), .resume (.login, 0) (.failed (-1)), .register]

-- The client tries again: refused, then accepted.
def loginRetried : Obj .AgoraRtmSDK :=
  final step (OneByOne .login) wedgedLogin
    [.call .login, .timer (.login, 1), .resume (.login, 1) (.accepted 0), .call .login,
      .timer (.login, 2), .resume (.login, 2) (.accepted 0), .register]

theorem retries_get_through_login :
    Refused loginRetried (.login, 1) ∧ ¬ Refused loginRetried (.login, 2) :=
  ⟨by decide, (retries_get_through .login wedgedLogin (reach_final rfl) (by decide) loginRetried
    (reach_final rfl)).2.1 1 (by decide) (by decide)⟩

end AgoraRtm.Adapter
