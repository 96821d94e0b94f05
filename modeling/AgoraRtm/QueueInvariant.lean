import AgoraRtm.AsyncQueue

/-!
# What a queue step can do

One inversion lemma for each step that several invariants split on, the
ownership of `lock_`, and the refinement of the first-in first-out channel.
-/

set_option autoImplicit false

namespace AgoraRtm.AsyncQueue
open Runs

variable {α : Type*}

@[simp] theorem setPc_q (s : State α) (a : Actor) (pc : Pc α) : (s.setPc a pc).q = s.q := rfl
@[simp] theorem setPc_capacity (s : State α) (a : Actor) (pc : Pc α) :
    (s.setPc a pc).capacity = s.capacity := rfl
@[simp] theorem setPc_lock (s : State α) (a : Actor) (pc : Pc α) :
    (s.setPc a pc).lock = s.lock := rfl
@[simp] theorem setPc_pending (s : State α) (a : Actor) (pc : Pc α) :
    (s.setPc a pc).pending = s.pending := rfl
@[simp] theorem setPc_loop (s : State α) (a : Actor) (pc : Pc α) :
    (s.setPc a pc).loop = s.loop := rfl
@[simp] theorem setPc_fault (s : State α) (a : Actor) (pc : Pc α) :
    (s.setPc a pc).fault = s.fault := rfl
@[simp] theorem setPc_pushed (s : State α) (a : Actor) (pc : Pc α) :
    (s.setPc a pc).pushed = s.pushed := rfl
@[simp] theorem setPc_handed (s : State α) (a : Actor) (pc : Pc α) :
    (s.setPc a pc).handed = s.handed := rfl
@[simp] theorem setPc_executed (s : State α) (a : Actor) (pc : Pc α) :
    (s.setPc a pc).executed = s.executed := rfl
@[simp] theorem setPc_lost (s : State α) (a : Actor) (pc : Pc α) :
    (s.setPc a pc).lost = s.lost := rfl
@[simp] theorem setPc_self (s : State α) (a : Actor) (pc : Pc α) : (s.setPc a pc).pcs a = pc := by
  simp [State.setPc]

theorem setPc_other (s : State α) (a b : Actor) (pc : Pc α) (h : b ≠ a) :
    (s.setPc a pc).pcs b = s.pcs b := by
  simp [State.setPc, Function.update, h]

theorem evict_cases (s : State α) (bounded : Bool) :
    evict s bounded = s ∨
      ∃ e rest, bounded = true ∧ s.capacity < s.q.length ∧ s.q = e :: rest ∧
        evict s bounded = { s with q := rest, lost := s.lost ++ [(.evicted, e)] } := by
  unfold evict
  split
  · rename_i hc
    simp only [Bool.and_eq_true, decide_eq_true_eq] at hc
    cases hq : s.q with
    | nil => simp [hq] at hc
    | cons e rest =>
      exact Or.inr ⟨e, rest, hc.1, by simpa [hq] using hc.2, rfl, by simp [takeFront]⟩
  · exact Or.inl rfl

theorem drainTest_cases (s : State α) :
    (s.q = [] ∧ drainTest s = { s with lock := none, loop := .leaving }) ∨
      ∃ e rest, s.q = e :: rest ∧ drainTest s =
        { s with q := rest, lock := none, loop := .running e, handed := s.handed ++ [e] } := by
  cases hq : s.q with
  | nil => exact Or.inl ⟨rfl, by simp [drainTest, hq]⟩
  | cons e rest => exact Or.inr ⟨e, rest, rfl, by simp [drainTest, hq, takeFront]⟩

section Inversion

variable {s t : State α} {a : Actor}

theorem step_call {e : α} (h : step s (.call a e) = some t) :
    t = s ∨ (s.present a = true ∧ s.pcs a = .idle ∧ s.closed = false ∧
      t = s.setPc a (.checked e)) := by
  simp only [step] at h
  split at h
  · rename_i hp hpc
    split at h
    · exact Or.inl (Option.some.inj h).symm
    · rename_i hc
      exact Or.inr ⟨hp, hpc, by simpa using hc, (Option.some.inj h).symm⟩
  · cases h

theorem step_enter (h : step s (.enter a) = some t) :
    ∃ e, s.lock = none ∧ s.pcs a = .checked e ∧
      t = { s.setPc a (.locked e (s.capacity != 0)) with lock := some (.caller a) } := by
  simp only [step] at h
  split at h
  · rename_i e hl hpc
    exact ⟨e, hl, hpc, (Option.some.inj h).symm⟩
  · cases h

theorem step_push (h : step s (.push a) = some t) :
    ∃ e bounded, s.pcs a = .locked e bounded ∧
      t = { (append (evict s bounded) e).setPc a .pushed with lock := none } := by
  simp only [step] at h
  split at h
  · rename_i e bounded hpc
    exact ⟨e, bounded, hpc, (Option.some.inj h).symm⟩
  · cases h

theorem step_send (h : step s (.send a) = some t) :
    s.pcs a = .pushed ∧ t = { s.setPc a .idle with pending := true } := by
  simp only [step] at h
  split at h
  · rename_i hpc
    exact ⟨hpc, (Option.some.inj h).symm⟩
  · cases h

theorem step_clear (h : step s (.clear a) = some t) :
    s.present a = true ∧ s.pcs a = .idle ∧ s.lock = none ∧
      t = { s with q := [], lost := s.lost ++ s.q.map (Loss.cleared, ·) } := by
  simp only [step] at h
  split at h
  · rename_i hp hpc hl
    exact ⟨hp, hpc, hl, (Option.some.inj h).symm⟩
  · cases h

theorem step_wake (h : step s .wake = some t) :
    s.loop = .idle ∧ s.pending = true ∧ t = { s with pending := false, loop := .entering } := by
  simp only [step] at h
  split at h
  · rename_i hl hp
    exact ⟨hl, hp, (Option.some.inj h).symm⟩
  · cases h

theorem step_acquire (h : step s .acquire = some t) :
    (s.loop = .entering ∨ s.loop = .relocking) ∧ s.lock = none ∧
      t = { s with lock := some .loop, loop := .testing } := by
  simp only [step] at h
  split at h
  · rename_i hl hk
    exact ⟨Or.inl hl, hk, (Option.some.inj h).symm⟩
  · rename_i hl hk
    exact ⟨Or.inr hl, hk, (Option.some.inj h).symm⟩
  · cases h

theorem step_test (h : step s .test = some t) : s.loop = .testing ∧ t = drainTest s := by
  simp only [step] at h
  split at h
  · rename_i hl
    exact ⟨hl, (Option.some.inj h).symm⟩
  · cases h

theorem step_finish (h : step s .finish = some t) :
    ∃ e, s.loop = .running e ∧ s.pcs .task = .idle ∧
      t = { s with loop := .relocking, executed := s.executed ++ [e] } := by
  simp only [step] at h
  split at h
  · rename_i e hl hpc
    exact ⟨e, hl, hpc, (Option.some.inj h).symm⟩
  · cases h

theorem step_leave (h : step s .leave = some t) :
    s.loop = .leaving ∧ t = { s with loop := .idle } := by
  simp only [step] at h
  split at h
  · rename_i hl
    exact ⟨hl, (Option.some.inj h).symm⟩
  · cases h

structure Same (s t : State α) : Prop where
  q : t.q = s.q
  capacity : t.capacity = s.capacity
  pushed : t.pushed = s.pushed
  handed : t.handed = s.handed
  lost : t.lost = s.lost

theorem step_effect {b : Action α} (h : step s b = some t) :
    Same s t ∨ (∃ a, b = .push a) ∨ (∃ a, b = .clear a) ∨ (∃ c, b = .setCapacity c) ∨
      b = .test := by
  cases b with
  | call a e =>
    rcases step_call h with rfl | ⟨-, -, -, rfl⟩ <;> exact Or.inl ⟨rfl, rfl, rfl, rfl, rfl⟩
  | enter a => obtain ⟨e, -, -, rfl⟩ := step_enter h; exact Or.inl ⟨rfl, rfl, rfl, rfl, rfl⟩
  | push a => exact Or.inr (Or.inl ⟨a, rfl⟩)
  | send a => obtain ⟨-, rfl⟩ := step_send h; exact Or.inl ⟨rfl, rfl, rfl, rfl, rfl⟩
  | setCapacity c => exact Or.inr (Or.inr (Or.inr (Or.inl ⟨c, rfl⟩)))
  | clear a => exact Or.inr (Or.inr (Or.inl ⟨a, rfl⟩))
  | close => obtain rfl := Option.some.inj h; exact Or.inl ⟨rfl, rfl, rfl, rfl, rfl⟩
  | wake => obtain ⟨-, -, rfl⟩ := step_wake h; exact Or.inl ⟨rfl, rfl, rfl, rfl, rfl⟩
  | acquire => obtain ⟨-, -, rfl⟩ := step_acquire h; exact Or.inl ⟨rfl, rfl, rfl, rfl, rfl⟩
  | test => exact Or.inr (Or.inr (Or.inr (Or.inr rfl)))
  | finish => obtain ⟨e, -, -, rfl⟩ := step_finish h; exact Or.inl ⟨rfl, rfl, rfl, rfl, rfl⟩
  | leave => obtain ⟨-, rfl⟩ := step_leave h; exact Or.inl ⟨rfl, rfl, rfl, rfl, rfl⟩

end Inversion

structure LockOwned (s : State α) : Prop where
  loop : s.lock = some .loop ↔ s.loop = .testing
  caller : ∀ a, s.lock = some (.caller a) ↔ ∃ e bounded, s.pcs a = .locked e bounded

theorem init_lock : LockOwned (init : State α) :=
  ⟨by simp [init], fun a => by simp [init]⟩

theorem setPc_lock_owned {s : State α} (hs : LockOwned s) (a : Actor) (pc : Pc α)
    (ha : ∀ e bounded, s.pcs a ≠ .locked e bounded) (hpc : ∀ e bounded, pc ≠ .locked e bounded) :
    LockOwned (s.setPc a pc) := by
  refine ⟨hs.loop, fun b => ?_⟩
  by_cases hb : b = a
  · subst hb
    have hno : ¬ s.lock = some (.caller b) := fun h => by
      obtain ⟨e, bounded, he⟩ := (hs.caller b).mp h
      exact ha e bounded he
    simp [hno, hpc]
  · rw [setPc_other s a b pc hb]
    exact hs.caller b

theorem LockOwned.not_loop {s : State α} (hs : LockOwned s) (h : s.loop ≠ .testing) :
    s.lock ≠ some .loop := fun hk => h (hs.loop.mp hk)

theorem LockOwned.not_testing {s : State α} (hs : LockOwned s) (h : s.lock ≠ some .loop) :
    s.loop ≠ .testing := fun ht => h (hs.loop.mpr ht)

theorem LockOwned.outside {s : State α} (hs : LockOwned s) (a : Actor)
    (h : s.lock ≠ some (.caller a)) : ¬ ∃ e bounded, s.pcs a = .locked e bounded :=
  fun hex => h ((hs.caller a).mpr hex)

theorem step_lock (s : State α) (a : Action α) (t : State α) (hs : LockOwned s)
    (h : step s a = some t) : LockOwned t := by
  cases a with
  | call a e =>
    rcases step_call h with rfl | ⟨-, hpc, -, rfl⟩
    · exact hs
    · exact setPc_lock_owned hs a _ (by simp [hpc]) (by simp)
  | enter a =>
    obtain ⟨e, hl, -, rfl⟩ := step_enter h
    constructor
    · have hno := hs.not_testing (by simp [hl])
      simp [hno]
    · intro b
      by_cases hb : b = a
      · subst hb
        simp
      · have hout := hs.outside b (by simp [hl])
        simpa [setPc_other s a b _ hb, Ne.symm hb] using hout
  | push a =>
    obtain ⟨e, bounded, hpc, rfl⟩ := step_push h
    have hlock := (hs.caller a).mpr ⟨e, bounded, hpc⟩
    have hsame : (evict s bounded).pcs = s.pcs ∧ (evict s bounded).loop = s.loop := by
      rcases evict_cases s bounded with he | ⟨_, _, -, -, -, he⟩ <;> simp [he]
    constructor
    · have hno := hs.not_testing (by simp [hlock])
      simp [append, hsame.2, hno]
    · intro b
      by_cases hb : b = a
      · subst hb
        simp
      · have hout := hs.outside b (by simpa [hlock] using Ne.symm hb)
        simpa [setPc_other _ a b _ hb, append, hsame.1] using hout
  | send a =>
    obtain ⟨hpc, rfl⟩ := step_send h
    have hset := setPc_lock_owned hs a .idle (by simp [hpc]) (by simp)
    exact ⟨hset.loop, hset.caller⟩
  | setCapacity c =>
    obtain rfl := Option.some.inj h
    exact ⟨hs.loop, hs.caller⟩
  | clear a =>
    obtain ⟨-, -, -, rfl⟩ := step_clear h
    exact ⟨hs.loop, hs.caller⟩
  | close =>
    obtain rfl := Option.some.inj h
    exact ⟨hs.loop, hs.caller⟩
  | wake =>
    obtain ⟨hl, -, rfl⟩ := step_wake h
    have hno := hs.not_loop (by simp [hl])
    exact ⟨by simp [hno], hs.caller⟩
  | acquire =>
    obtain ⟨-, hk, rfl⟩ := step_acquire h
    refine ⟨by simp, fun b => ?_⟩
    have hout := hs.outside b (by simp [hk])
    simpa using hout
  | test =>
    obtain ⟨hl, rfl⟩ := step_test h
    have hk := hs.loop.mpr hl
    have hout : ∀ b, ¬ ∃ e bounded, s.pcs b = .locked e bounded :=
      fun b => hs.outside b (by simp [hk])
    rcases drainTest_cases s with ⟨-, hd⟩ | ⟨e, rest, -, hd⟩ <;> rw [hd] <;>
      exact ⟨by simp, fun b => by simpa using hout b⟩
  | finish =>
    obtain ⟨e, hl, -, rfl⟩ := step_finish h
    have hno := hs.not_loop (by simp [hl])
    exact ⟨by simp [hno], hs.caller⟩
  | leave =>
    obtain ⟨hl, rfl⟩ := step_leave h
    have hno := hs.not_loop (by simp [hl])
    exact ⟨by simp [hno], hs.caller⟩

theorem reach_lock {s : State α} (h : Reach step always init s) : LockOwned s :=
  h.invariant init_lock fun s a t hs _ hst => step_lock s a t hs hst

/-- The queue as a first-in first-out channel: what was pushed, what is still
queued, what `cb_` was given, and what was lost and why. -/
def ledger (s : State α) : Fifo.State (Entry α) Loss := ⟨s.pushed, s.q, s.handed, s.lost⟩

theorem evict_ledger (s : State α) (bounded : Bool) :
    Reach Fifo.step always (ledger s) (ledger (evict s bounded)) := by
  rcases evict_cases s bounded with he | ⟨e, rest, -, -, hq, he⟩
  · rw [he]
    exact Reach.refl _
  · rw [he]
    have hdrop : Fifo.step (ledger s) (.drop .evicted) =
        some ⟨s.pushed, rest, s.handed, s.lost ++ [(.evicted, e)]⟩ := by
      simp [Fifo.step, ledger, hq]
    exact Reach.single trivial hdrop

theorem append_ledger (s : State α) (e : α) :
    Reach Fifo.step always (ledger s) (ledger (append s e)) := by
  have hsend : Fifo.step (ledger s) (.send ⟨s.pushed.length, e⟩) = some (ledger (append s e)) := rfl
  exact Reach.single trivial hsend

theorem step_ledger (s : State α) (a : Action α) (t : State α) (h : step s a = some t) :
    Reach Fifo.step always (ledger s) (ledger t) := by
  rcases step_effect h with hsame | ⟨a, rfl⟩ | ⟨a, rfl⟩ | ⟨c, rfl⟩ | rfl
  · have hledger : ledger t = ledger s := by
      simp only [ledger, hsame.pushed, hsame.q, hsame.handed, hsame.lost]
    rw [hledger]
    exact Reach.refl _
  · obtain ⟨e, bounded, -, rfl⟩ := step_push h
    exact (evict_ledger s bounded).trans (append_ledger (evict s bounded) e)
  · obtain ⟨-, -, -, rfl⟩ := step_clear h
    exact Fifo.reach_drop_all Loss.cleared s.q (ledger s) rfl
  · obtain rfl := Option.some.inj h
    exact Reach.refl _
  · obtain ⟨-, rfl⟩ := step_test h
    rcases drainTest_cases s with ⟨-, hd⟩ | ⟨e, rest, hq, hd⟩
    · rw [hd]
      exact Reach.refl _
    · rw [hd]
      have hrecv : Fifo.step (ledger s) .receive =
          some ⟨s.pushed, rest, s.handed ++ [e], s.lost⟩ := by
        simp [Fifo.step, ledger, hq]
      exact Reach.single trivial hrecv

/-- The queue refines the abstract channel, under every interleaving. -/
theorem reach_ledger {ok : State α → Action α → Prop} {s : State α}
    (h : Reach step ok init s) : Reach Fifo.step always Fifo.empty (ledger s) :=
  h.refine (I := fun _ => True) ledger trivial (fun _ _ _ _ _ _ => trivial)
    fun s a t _ _ hst => step_ledger s a t hst

theorem reach_queue_sound {ok : State α → Action α → Prop} {s : State α}
    (h : Reach step ok init s) : Fifo.Sound (ledger s) :=
  Fifo.reach_sound (reach_ledger h)

end AgoraRtm.AsyncQueue
