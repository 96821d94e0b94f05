import AgoraRtm.QueueInvariant
import Mathlib.Data.List.DropRight

/-!
# The queue under a capacity

`async_call` evicts the front element when it finds more elements than the
capacity and then pushes, so the queue grows to one element above the capacity
before it begins to drop the oldest.
-/

set_option autoImplicit false

namespace AgoraRtm.AsyncQueue
open Runs

variable {α : Type*}

def Bounded (_ : State α) : Action α → Prop
  | .setCapacity _ => False
  | .clear _ => False
  | _ => True

def Roomy (c : ℕ) (s : State α) : Action α → Prop
  | .push _ => s.q.length < c
  | a => Bounded s a

def Undrained (s : State α) : Action α → Prop
  | .test => s.q = []
  | a => Bounded s a

instance (s : State α) : (a : Action α) → Decidable (Bounded s a)
  | .setCapacity _ | .clear _ => inferInstanceAs (Decidable False)
  | .call .. | .enter _ | .push _ | .send _ | .close | .wake | .acquire | .test | .finish
  | .leave => inferInstanceAs (Decidable True)

instance (c : ℕ) (s : State α) : (a : Action α) → Decidable (Roomy c s a)
  | .push _ => inferInstanceAs (Decidable (s.q.length < c))
  | .setCapacity _ | .clear _ => inferInstanceAs (Decidable False)
  | .call .. | .enter _ | .send _ | .close | .wake | .acquire | .test | .finish
  | .leave => inferInstanceAs (Decidable True)

instance (s : State α) : (a : Action α) → Decidable (Undrained s a)
  | .test => decidable_of_iff (s.q.isEmpty = true) List.isEmpty_iff
  | .setCapacity _ | .clear _ => inferInstanceAs (Decidable False)
  | .call .. | .enter _ | .push _ | .send _ | .close | .wake | .acquire | .finish
  | .leave => inferInstanceAs (Decidable True)

theorem Roomy.bounded {c : ℕ} {s : State α} {a : Action α} (h : Roomy c s a) : Bounded s a := by
  cases a <;> first | exact h | trivial

theorem Undrained.bounded {s : State α} {a : Action α} (h : Undrained s a) : Bounded s a := by
  cases a <;> first | exact h | trivial

/-- The capacity is in force: there is at most one element above it, and a caller
that read no capacity before it was set is still alone with the empty queue. -/
structure Capped (c : ℕ) (s : State α) : Prop where
  capacity : s.capacity = c
  length : s.q.length ≤ c+1
  early : ∀ a e, s.pcs a = .locked e false → s.q = []
  lock : LockOwned s

variable {c : ℕ} {s t : State α}

theorem evict_length (s : State α) (bounded : Bool) :
    (evict s bounded).q.length =
      if bounded = true ∧ s.capacity < s.q.length then s.q.length-1 else s.q.length := by
  unfold evict
  cases hq : s.q with
  | nil => simp [hq]
  | cons e rest =>
    cases bounded with
    | false => simp [hq]
    | true =>
      by_cases hfull : s.capacity < rest.length+1
      · simp [takeFront, hfull]
      · simp [hfull, hq]

theorem Capped.evict_length (h : Capped c s) (bounded : Bool) (hb : bounded = false → s.q = []) :
    (evict s bounded).q.length = min s.q.length c := by
  have hlength := h.length
  rw [AsyncQueue.evict_length, h.capacity]
  cases bounded with
  | false => simp [hb rfl]
  | true =>
    simp only [true_and]
    split <;> omega

theorem Capped.push (h : Capped c s) {a : Actor} (hs : step s (.push a) = some t) :
    t.q.length = min (s.q.length+1) (c+1) ∧ t.pushed.length = s.pushed.length+1 := by
  obtain ⟨e, bounded, hpc, rfl⟩ := step_push hs
  have hlength := h.evict_length bounded fun hb => h.early a e (hb ▸ hpc)
  have hpushed : (evict s bounded).pushed = s.pushed := by
    rcases evict_cases s bounded with he | ⟨_, _, -, -, -, he⟩ <;> simp [he]
  simp [append, hlength, hpushed, Nat.succ_min_succ]

theorem step_elements {a : Action α} (hb : Bounded s a) (hs : step s a = some t) :
    (∃ caller, a = .push caller) ∨
    (t.pushed = s.pushed ∧ (t.q = s.q ∨ a = .test ∧ ∃ e, s.q = e :: t.q)) := by
  rcases step_effect hs with hsame | ⟨a, rfl⟩ | ⟨a, rfl⟩ | ⟨c, rfl⟩ | rfl
  · exact Or.inr ⟨hsame.pushed, Or.inl hsame.q⟩
  · exact Or.inl ⟨a, rfl⟩
  · exact hb.elim
  · exact hb.elim
  · obtain ⟨-, rfl⟩ := step_test hs
    rcases drainTest_cases s with ⟨-, hd⟩ | ⟨e, rest, hq, hd⟩
    · rw [hd]
      exact Or.inr ⟨rfl, Or.inl rfl⟩
    · rw [hd]
      exact Or.inr ⟨rfl, Or.inr ⟨rfl, e, hq⟩⟩

theorem step_capacity {a : Action α} (hb : Bounded s a) (hs : step s a = some t) :
    t.capacity = s.capacity := by
  rcases step_effect hs with hsame | ⟨a, rfl⟩ | ⟨a, rfl⟩ | ⟨c, rfl⟩ | rfl
  · exact hsame.capacity
  · obtain ⟨e, bounded, -, rfl⟩ := step_push hs
    rcases evict_cases s bounded with he | ⟨_, _, -, -, -, he⟩ <;> simp [append, he]
  · exact hb.elim
  · exact hb.elim
  · obtain ⟨-, rfl⟩ := step_test hs
    rcases drainTest_cases s with ⟨-, hd⟩ | ⟨e, rest, -, hd⟩ <;> rw [hd]

theorem setPc_locked {a b : Actor} {pc : Pc α} {e : α} {bounded : Bool}
    (hpc : ∀ e', pc ≠ .locked e' bounded) (h : (s.setPc a pc).pcs b = .locked e bounded) :
    s.pcs b = .locked e bounded := by
  by_cases hb : b = a
  · subst hb
    rw [setPc_self] at h
    exact absurd h (hpc e)
  · rwa [setPc_other s a b pc hb] at h

theorem LockOwned.free (h : LockOwned s) (hl : s.lock = none) (b : Actor) (e : α) (bounded : Bool) :
    s.pcs b ≠ .locked e bounded :=
  fun hpc => h.outside b (by simp [hl]) ⟨e, bounded, hpc⟩

theorem Capped.step_early (h : Capped c s) (hc : 0 < c) {a : Action α} (hb : Bounded s a)
    (hs : step s a = some t) (b : Actor) (e : α) (hl : t.pcs b = .locked e false) : t.q = [] := by
  have hlock := step_lock s a t h.lock hs
  cases a with
  | setCapacity c => exact hb.elim
  | clear a => exact hb.elim
  | call a e =>
    rcases step_call hs with rfl | ⟨-, -, -, rfl⟩
    · exact h.early b _ hl
    · exact h.early b _ (setPc_locked (by simp) hl)
  | enter a =>
    obtain ⟨e, -, -, rfl⟩ := step_enter hs
    have hread : (s.capacity != 0) = true := by simpa [h.capacity] using Nat.ne_of_gt hc
    exact h.early b _ (setPc_locked (by simp [hread]) hl)
  | push a =>
    obtain ⟨e, bounded, -, rfl⟩ := step_push hs
    exact absurd hl (hlock.free rfl b _ _)
  | send a =>
    obtain ⟨-, rfl⟩ := step_send hs
    exact h.early b _ (setPc_locked (by simp) hl)
  | close => obtain rfl := Option.some.inj hs; exact h.early b _ hl
  | wake => obtain ⟨-, -, rfl⟩ := step_wake hs; exact h.early b _ hl
  | acquire => obtain ⟨-, -, rfl⟩ := step_acquire hs; exact h.early b _ hl
  | test =>
    have hnone : t.lock = none := by
      obtain ⟨-, rfl⟩ := step_test hs
      rcases drainTest_cases s with ⟨-, hd⟩ | ⟨e, rest, -, hd⟩ <;> rw [hd]
    exact absurd hl (hlock.free hnone b _ _)
  | finish => obtain ⟨e, -, -, rfl⟩ := step_finish hs; exact h.early b _ hl
  | leave => obtain ⟨-, rfl⟩ := step_leave hs; exact h.early b _ hl

theorem Capped.step (h : Capped c s) (hc : 0 < c) {a : Action α} (hb : Bounded s a)
    (hs : step s a = some t) : Capped c t := by
  refine ⟨(step_capacity hb hs).trans h.capacity, ?_, h.step_early hc hb hs,
    step_lock s a t h.lock hs⟩
  rcases step_elements hb hs with ⟨caller, rfl⟩ | ⟨-, hq | ⟨-, e, hq⟩⟩
  · have hpush := (h.push hs).1
    omega
  · rw [hq]
    exact h.length
  · have hlength := h.length
    rw [hq, List.length_cons] at hlength
    omega

theorem set_capped {s₀ : State α} (h₀ : Reach step always init s₀) (hempty : s₀.q = [])
    (hset : step s₀ (.setCapacity c) = some s) : Capped c s := by
  have hlock := step_lock s₀ _ s (reach_lock h₀) hset
  obtain rfl := Option.some.inj hset
  exact ⟨rfl, by simp [hempty], fun _ _ _ => hempty, hlock⟩

theorem reach_capped (hc : 0 < c) (h : Capped c s) (ht : Reach step Bounded s t) : Capped c t :=
  ht.invariant h fun _ _ _ hu hb hs => hu.step hc hb hs

theorem reach_filled (hc : 0 < c) (h : Capped c s) (ht : Reach step Undrained s t) :
    Capped c t ∧ s.pushed.length ≤ t.pushed.length ∧
      t.q.length = min (s.q.length+(t.pushed.length-s.pushed.length)) (c+1) := by
  refine ht.invariant (I := fun u => Capped c u ∧ s.pushed.length ≤ u.pushed.length ∧
    u.q.length = min (s.q.length+(u.pushed.length-s.pushed.length)) (c+1)) ?_ ?_
  · have hlength := h.length
    exact ⟨h, Nat.le_refl _, by omega⟩
  · rintro u a v ⟨hu, hle, hlength⟩ hfull hs
    refine ⟨hu.step hc hfull.bounded hs, ?_⟩
    rcases step_elements hfull.bounded hs with ⟨caller, rfl⟩ | ⟨hpushed, hq | ⟨rfl, e, hq⟩⟩
    · obtain ⟨hq, hpushed⟩ := hu.push hs
      omega
    · rw [hpushed, hq]
      exact ⟨hle, hlength⟩
    · have hnone : u.q = [] := hfull
      rw [hnone] at hq
      cases hq

theorem roomy_length (hc : 0 < c) (h : Capped c s) (hempty : s.q = [])
    (ht : Reach step (Roomy c) s t) : Capped c t ∧ t.q.length ≤ c := by
  refine ht.invariant (I := fun u => Capped c u ∧ u.q.length ≤ c) ⟨h, by simp [hempty]⟩ ?_
  rintro u a v ⟨hu, hlength⟩ hroom hs
  refine ⟨hu.step hc hroom.bounded hs, ?_⟩
  rcases step_elements hroom.bounded hs with ⟨caller, rfl⟩ | ⟨-, hq | ⟨-, e, hq⟩⟩
  · have hpush := (hu.push hs).1
    have hfree : u.q.length < c := hroom
    omega
  · rw [hq]
    exact hlength
  · rw [hq, List.length_cons] at hlength
    omega

/-- The queue is always the end of what was pushed. -/
theorem queue_rtake (h : Reach step always init s) : s.q = s.pushed.rtake s.q.length := by
  have hrecent : s.q <:+ s.pushed := Fifo.reach_recent (reach_ledger h)
  rw [List.rtake]
  exact List.suffix_iff_eq_drop.mp hrecent

/-- The queue under a capacity `c` set while it was empty. It never holds more
than `c` elements while no push finds `c` there, and a push that does leaves it
with more. After `n` pushes on the empty queue without a drain it holds the last
`c+1` of them, if there are so many, so that it holds the last `c` only up to `n = c`. -/
theorem capacity_bounds (c : ℕ) (hc : 0 < c) (s₀ s : State α) (h₀ : Reach step always init s₀)
    (hempty : s₀.q = []) (hset : step s₀ (.setCapacity c) = some s) :
    (∀ t, Reach step (Roomy c) s t → t.q.length ≤ c) ∧
    (∀ t u caller, Reach step Bounded s t → step t (.push caller) = some u →
      (u.q.length ≤ c ↔ t.q.length < c)) ∧
    ∀ t u, Reach step Bounded s t → t.q = [] → Reach step Undrained t u →
      u.q = u.pushed.rtake (min (u.pushed.length-t.pushed.length) (c+1)) ∧
      (u.q = u.pushed.rtake (min (u.pushed.length-t.pushed.length) c) ↔
        u.pushed.length-t.pushed.length ≤ c) := by
  have hcapped := set_capped h₀ hempty hset
  refine ⟨?_, ?_, ?_⟩
  · intro t ht
    have hq : s.q = [] := by
      obtain rfl := Option.some.inj hset
      exact hempty
    exact (roomy_length hc hcapped hq ht).2
  · intro t u caller ht hs
    have hpush := ((reach_capped hc hcapped ht).push hs).1
    omega
  · intro t u ht hq hu
    obtain ⟨-, hpushed, hlength⟩ := reach_filled hc (reach_capped hc hcapped ht) hu
    have hreach : Reach step always init u :=
      ((h₀.tail trivial hset).trans ht.weaken).trans hu.weaken
    rw [hq, List.length_nil, Nat.zero_add] at hlength
    have hlast := queue_rtake hreach
    refine ⟨by rw [← hlength]; exact hlast, ?_⟩
    constructor
    · intro hc'
      have hshort := congrArg List.length hc'
      rw [List.rtake, List.length_drop] at hshort
      omega
    · intro hn
      rw [Nat.min_eq_left hn, ← Nat.min_eq_left (Nat.le_succ_of_le hn), ← hlength]
      exact hlast

def pushes (elems : List ℕ) : List (Action ℕ) :=
  elems.flatMap fun e => [.call (.producer 0) e, .enter (.producer 0), .push (.producer 0),
    .send (.producer 0)]

theorem capacity_bounds_one :
    (final step (Roomy 1) { init with capacity := 1 } (pushes [10])).q.length ≤ 1 ∧
    (final step Undrained { init with capacity := 1 } (pushes [10, 11, 12])).q =
      [⟨1, 11⟩, ⟨2, 12⟩] := by
  have hbounds := capacity_bounds 1 (by decide) (init : State ℕ) { init with capacity := 1 }
    (Reach.refl _) rfl rfl
  refine ⟨hbounds.1 _ (reach_final rfl), ?_⟩
  rw [(hbounds.2.2 _ _ (Reach.refl _) rfl (reach_final rfl)).1]
  rfl

theorem capacity_exceeded :
    ¬ ∀ (c : ℕ) (s t : State ℕ), 0 < c → step init (.setCapacity c) = some s →
      Reach step Bounded s t → t.q.length ≤ c := by
  intro h
  have hover := h 1 { init with capacity := 1 }
    (final step Bounded { init with capacity := 1 } (pushes [10, 11])) (by decide) rfl
    (reach_final rfl)
  revert hover
  decide

end AgoraRtm.AsyncQueue
