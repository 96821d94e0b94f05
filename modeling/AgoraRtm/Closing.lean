import AgoraRtm.QueueSafety

/-!
# Closing the queue

`close` sets a flag that `async_call` reads before it takes the lock. A caller
that has read it in time pushes after the queue is closed; nobody else does, and
what was pushed is drained as before.
-/

set_option autoImplicit false

namespace AgoraRtm.AsyncQueue
open Runs

variable {α : Type*}

/-- The element that a caller has brought past the test of `closed_` and has not
pushed yet. -/
def Pc.carried : Pc α → Option α
  | .checked e => some e
  | .locked e _ => some e
  | _ => none

theorem evict_aside (s : State α) (bounded : Bool) :
    (evict s bounded).pushed = s.pushed ∧ (evict s bounded).pcs = s.pcs ∧
      (evict s bounded).closed = s.closed := by
  rcases evict_cases s bounded with he | ⟨_, _, -, -, -, he⟩ <;> rw [he] <;> exact ⟨rfl, rfl, rfl⟩

section Steps

variable {s t u : State α}

theorem setPc_carried {a : Actor} {pc : Pc α} (hpc : pc.carried = (s.pcs a).carried) (c : Actor) :
    ((s.setPc a pc).pcs c).carried = (s.pcs c).carried := by
  by_cases hc : c = a
  · subst hc
    rw [setPc_self, hpc]
  · rw [setPc_other s a c pc hc]

theorem call_cases {a : Actor} {e : α} (hs : step s (.call a e) = some t) :
    s.pcs a = .idle ∧
      (s.closed = true ∧ t = s ∨ s.closed = false ∧ t = s.setPc a (.checked e)) := by
  simp only [step] at hs
  split at hs
  · rename_i hpc
    split at hs
    · rename_i hclosed
      exact ⟨hpc, Or.inl ⟨hclosed, (Option.some.inj hs).symm⟩⟩
    · rename_i hopen
      exact ⟨hpc, Or.inr ⟨by simpa using hopen, (Option.some.inj hs).symm⟩⟩
  · cases hs

theorem push_carried {a : Actor} (hs : step s (.push a) = some t) :
    ∃ e, (s.pcs a).carried = some e ∧ t.pushed = s.pushed ++ [⟨s.pushed.length, e⟩] ∧
      (t.pcs a).carried = none ∧ ∀ c, c ≠ a → (t.pcs c).carried = (s.pcs c).carried := by
  obtain ⟨e, bounded, hpc, rfl⟩ := step_push hs
  obtain ⟨hpushed, hpcs, -⟩ := evict_aside s bounded
  refine ⟨e, by rw [hpc]; rfl, by simp [append, hpushed], by simp [Pc.carried], ?_⟩
  intro c hc
  simp [setPc_other _ a c _ hc, append, hpcs]

theorem step_carried {b : Action α} (hs : step s b = some t) :
    (∃ a e, b = .call a e) ∨
    (∃ a e, b = .push a ∧ (s.pcs a).carried = some e ∧
      t.pushed = s.pushed ++ [⟨s.pushed.length, e⟩] ∧ (t.pcs a).carried = none ∧
      ∀ c, c ≠ a → (t.pcs c).carried = (s.pcs c).carried) ∨
    (t.pushed = s.pushed ∧ ∀ c, (t.pcs c).carried = (s.pcs c).carried) := by
  cases b with
  | call a e => exact Or.inl ⟨a, e, rfl⟩
  | enter a =>
    obtain ⟨e, -, hpc, rfl⟩ := step_enter hs
    exact Or.inr (Or.inr ⟨rfl, setPc_carried (by rw [hpc]; rfl)⟩)
  | push a =>
    obtain ⟨e, hpush⟩ := push_carried hs
    exact Or.inr (Or.inl ⟨a, e, rfl, hpush⟩)
  | send a =>
    obtain ⟨hpc, rfl⟩ := step_send hs
    exact Or.inr (Or.inr ⟨rfl, setPc_carried (by rw [hpc]; rfl)⟩)
  | test =>
    obtain ⟨-, rfl⟩ := step_test hs
    rcases drainTest_cases s with ⟨-, hd⟩ | ⟨e, rest, -, hd⟩ <;> rw [hd] <;>
      exact Or.inr (Or.inr ⟨rfl, fun _ => rfl⟩)
  | setCapacity c => obtain rfl := Option.some.inj hs; exact Or.inr (Or.inr ⟨rfl, fun _ => rfl⟩)
  | clear a => obtain ⟨-, -, -, rfl⟩ := step_clear hs; exact Or.inr (Or.inr ⟨rfl, fun _ => rfl⟩)
  | close => obtain rfl := Option.some.inj hs; exact Or.inr (Or.inr ⟨rfl, fun _ => rfl⟩)
  | wake => obtain ⟨-, -, rfl⟩ := step_wake hs; exact Or.inr (Or.inr ⟨rfl, fun _ => rfl⟩)
  | acquire => obtain ⟨-, -, rfl⟩ := step_acquire hs; exact Or.inr (Or.inr ⟨rfl, fun _ => rfl⟩)
  | finish => obtain ⟨e, -, -, rfl⟩ := step_finish hs; exact Or.inr (Or.inr ⟨rfl, fun _ => rfl⟩)
  | leave => obtain ⟨-, rfl⟩ := step_leave hs; exact Or.inr (Or.inr ⟨rfl, fun _ => rfl⟩)

theorem step_closed {b : Action α} (hs : step s b = some t) :
    t.closed = s.closed ∨ b = .close ∧ t.closed = true := by
  cases b with
  | call a e => rcases step_call hs with rfl | ⟨-, -, -, rfl⟩ <;> exact Or.inl rfl
  | enter a => obtain ⟨e, -, -, rfl⟩ := step_enter hs; exact Or.inl rfl
  | push a =>
    obtain ⟨e, bounded, -, rfl⟩ := step_push hs
    exact Or.inl (evict_aside s bounded).2.2
  | send a => obtain ⟨-, rfl⟩ := step_send hs; exact Or.inl rfl
  | setCapacity c => obtain rfl := Option.some.inj hs; exact Or.inl rfl
  | clear a => obtain ⟨-, -, -, rfl⟩ := step_clear hs; exact Or.inl rfl
  | close => obtain rfl := Option.some.inj hs; exact Or.inr ⟨rfl, rfl⟩
  | wake => obtain ⟨-, -, rfl⟩ := step_wake hs; exact Or.inl rfl
  | acquire => obtain ⟨-, -, rfl⟩ := step_acquire hs; exact Or.inl rfl
  | test =>
    obtain ⟨-, rfl⟩ := step_test hs
    rcases drainTest_cases s with ⟨-, hd⟩ | ⟨e, rest, -, hd⟩ <;> rw [hd] <;> exact Or.inl rfl
  | finish => obtain ⟨e, -, -, rfl⟩ := step_finish hs; exact Or.inl rfl
  | leave => obtain ⟨-, rfl⟩ := step_leave hs; exact Or.inl rfl

end Steps

/-- Late pushes, each with its caller: one at most of each caller that carried an
element in `s`, and that element. -/
structure Late (s t : State α) (late : List (Actor × Entry α)) : Prop where
  closed : t.closed = true
  pushed : t.pushed = s.pushed ++ late.map Prod.snd
  once : (late.map Prod.fst).Nodup
  carried : ∀ x ∈ late, (s.pcs x.1).carried = some x.2.elem
  waiting : ∀ a e, (t.pcs a).carried = some e → (s.pcs a).carried = some e ∧ a ∉ late.map Prod.fst

theorem Late.step {s t u : State α} {late : List (Actor × Entry α)} (h : Late s t late)
    {b : Action α} (hs : AsyncQueue.step t b = some u) : ∃ late, Late s u late := by
  have hclosed : u.closed = true := by
    rcases step_closed hs with hsame | ⟨-, hnew⟩
    · exact hsame.trans h.closed
    · exact hnew
  rcases step_carried hs with ⟨a, e, rfl⟩ | ⟨a, e, -, ha, hpushed, hnone, hother⟩ |
    ⟨hpushed, hsame⟩
  · rcases (call_cases hs).2 with ⟨-, rfl⟩ | ⟨hopen, -⟩
    · exact ⟨late, h⟩
    · rw [h.closed] at hopen
      cases hopen
  · obtain ⟨hstart, hnew⟩ := h.waiting a e ha
    refine ⟨late ++ [(a, ⟨t.pushed.length, e⟩)], hclosed, ?_, ?_, ?_, ?_⟩
    · simp [hpushed, h.pushed]
    · rw [List.map_append, List.nodup_append']
      exact ⟨h.once, by simp, by simpa using hnew⟩
    · intro x hx
      rcases List.mem_append.mp hx with hold | hlast
      · exact h.carried x hold
      · obtain rfl := List.mem_singleton.mp hlast
        exact hstart
    · intro c e' hc
      by_cases hca : c = a
      · rw [hca, hnone] at hc
        cases hc
      · rw [hother c hca] at hc
        obtain ⟨hstart', hnew'⟩ := h.waiting c e' hc
        exact ⟨hstart', by simpa [hca] using hnew'⟩
  · refine ⟨late, hclosed, hpushed.trans h.pushed, h.once, h.carried, ?_⟩
    intro c e hc
    rw [hsame c] at hc
    exact h.waiting c e hc

theorem reach_late {s t : State α} (hclosed : s.closed = true) (h : Reach step always s t) :
    ∃ late, Late s t late := by
  refine h.invariant (I := fun u => ∃ late, Late s u late) ⟨[], hclosed, by simp, by simp, by simp,
    fun a e he => ⟨he, by simp⟩⟩ ?_
  rintro u a v ⟨late, hlate⟩ - hs
  exact hlate.step hs

/-- A closed queue stays closed. What is pushed on it comes from callers that had
read `closed_` before, each of which pushes at most the one element it carried; with
none of them on the way nothing more is pushed. -/
theorem closed_queue_accepts_no_more (s t : State α) (hclosed : s.closed = true)
    (h : Reach step always s t) :
    t.closed = true ∧
    (∃ late : List (Actor × Entry α), t.pushed = s.pushed ++ late.map Prod.snd ∧
      (late.map Prod.fst).Nodup ∧ ∀ x ∈ late, (s.pcs x.1).carried = some x.2.elem) ∧
    ((∀ a, (s.pcs a).carried = none) → t.pushed = s.pushed) := by
  obtain ⟨late, hlate⟩ := reach_late hclosed h
  refine ⟨hlate.closed, ⟨late, hlate.pushed, hlate.once, hlate.carried⟩, ?_⟩
  intro hnone
  have hempty : late = [] := by
    rw [List.eq_nil_iff_forall_not_mem]
    intro x hx
    have hx' := hlate.carried x hx
    rw [hnone] at hx'
    cases hx'
  simpa [hempty] using hlate.pushed

-- Closed between a producer's test of `closed_` and its push, which goes through;
-- the call after it does nothing.
def closedBetween : List (Action ℕ) := [.call (.producer 0) 10, .close]

def afterClose : List (Action ℕ) :=
  [.enter (.producer 0), .push (.producer 0), .call (.producer 1) 11]

theorem closed_queue_accepts_no_more_between :
    (final step always (final step always init closedBetween) afterClose).closed = true ∧
    (final step always (final step always init closedBetween) afterClose).pushed = [⟨0, 10⟩] :=
  ⟨(closed_queue_accepts_no_more (final step always init closedBetween) _ rfl (reach_final rfl)).1,
    rfl⟩

end AgoraRtm.AsyncQueue
