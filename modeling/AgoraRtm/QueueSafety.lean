import AgoraRtm.QueueInvariant
import Mathlib.Data.List.Range

/-!
# Conservation, order and wake-ups of the queue

The interleavings range over any number of producers, over changes of the
capacity and clearing, and over tasks that call back into the queue. Only the
last result restricts them, to the way `node_async_call` uses its queue.
-/

set_option autoImplicit false

namespace AgoraRtm.AsyncQueue
open Runs

variable {α : Type*}

def seqs (l : List (Entry α)) : List ℕ := l.map Entry.seq

def State.lostBy (s : State α) (why : Loss) : List (Entry α) :=
  (s.lost.filter fun x => x.1 = why).map Prod.snd

def LoopPc.current : LoopPc α → List (Entry α)
  | .running e => [e]
  | _ => []

/-- Bookkeeping and the guards of `front` and `pop`. -/
structure Kept (s : State α) : Prop where
  numbered : seqs s.pushed = List.range s.pushed.length
  executed : s.executed ++ s.loop.current = s.handed
  guarded : s.fault = false

theorem init_kept : Kept (init : State α) := ⟨rfl, rfl, rfl⟩

theorem evict_kept (s : State α) (bounded : Bool) (hs : Kept s) : Kept (evict s bounded) := by
  rcases evict_cases s bounded with he | ⟨e, rest, -, -, -, he⟩
  · rw [he]
    exact hs
  · rw [he]
    exact ⟨hs.numbered, hs.executed, hs.guarded⟩

theorem append_kept (s : State α) (e : α) (hs : Kept s) : Kept (append s e) := by
  refine ⟨?_, hs.executed, hs.guarded⟩
  have hn := hs.numbered
  simp only [seqs] at hn
  simp [append, seqs, hn, List.range_succ]

theorem step_kept (s : State α) (a : Action α) (t : State α) (hs : Kept s)
    (h : step s a = some t) : Kept t := by
  obtain ⟨hn, he, hg⟩ := hs
  cases a with
  | call a e => rcases step_call h with rfl | ⟨-, -, -, rfl⟩ <;> exact ⟨hn, he, hg⟩
  | enter a => obtain ⟨e, -, -, rfl⟩ := step_enter h; exact ⟨hn, he, hg⟩
  | push a =>
    obtain ⟨e, bounded, -, rfl⟩ := step_push h
    have hk := append_kept (evict s bounded) e (evict_kept s bounded ⟨hn, he, hg⟩)
    exact ⟨hk.numbered, hk.executed, hk.guarded⟩
  | send a => obtain ⟨-, rfl⟩ := step_send h; exact ⟨hn, he, hg⟩
  | setCapacity c => obtain rfl := Option.some.inj h; exact ⟨hn, he, hg⟩
  | clear a => obtain ⟨-, -, -, rfl⟩ := step_clear h; exact ⟨hn, he, hg⟩
  | close => obtain rfl := Option.some.inj h; exact ⟨hn, he, hg⟩
  | wake =>
    obtain ⟨hl, -, rfl⟩ := step_wake h
    exact ⟨hn, by simpa [hl, LoopPc.current] using he, hg⟩
  | acquire =>
    obtain ⟨hl, -, rfl⟩ := step_acquire h
    refine ⟨hn, ?_, hg⟩
    rcases hl with hl | hl <;> simpa [hl, LoopPc.current] using he
  | test =>
    obtain ⟨hl, rfl⟩ := step_test h
    rcases drainTest_cases s with ⟨-, hd⟩ | ⟨e, rest, -, hd⟩ <;> rw [hd] <;>
      exact ⟨hn, by simpa [hl, LoopPc.current] using he, hg⟩
  | finish =>
    obtain ⟨e, hl, -, rfl⟩ := step_finish h
    exact ⟨hn, by simpa [hl, LoopPc.current] using he, hg⟩
  | leave =>
    obtain ⟨hl, rfl⟩ := step_leave h
    exact ⟨hn, by simpa [hl, LoopPc.current] using he, hg⟩

theorem reach_kept {s : State α} (h : Reach step always init s) : Kept s :=
  h.invariant init_kept fun s a t hs _ hst => step_kept s a t hs hst

theorem count_lost (s : State α) (n : ℕ) :
    (seqs (s.lost.map Prod.snd)).count n =
      (seqs (s.lostBy .evicted)).count n + (seqs (s.lostBy .cleared)).count n := by
  unfold State.lostBy seqs
  induction s.lost with
  | nil => rfl
  | cons x rest ih =>
    obtain ⟨why, e⟩ := x
    simp only [List.map_map] at ih ⊢
    cases why <;> by_cases hn : e.seq = n <;> simp [hn] <;> omega

theorem fate_unique (s : State α) (hs : Kept s) (hf : Fifo.Sound (ledger s)) (n : ℕ)
    (hn : n < s.pushed.length) :
    (seqs s.q).count n + (seqs s.handed).count n +
      (seqs (s.lostBy .evicted)).count n + (seqs (s.lostBy .cleared)).count n = 1 := by
  have hperm : (seqs (s.handed ++ s.lost.map Prod.snd ++ s.q)).Perm (seqs s.pushed) :=
    hf.conserved.map Entry.seq
  have hcount := hperm.count_eq n
  rw [hs.numbered, List.count_eq_one_of_mem List.nodup_range (List.mem_range.mpr hn)] at hcount
  have hlost := count_lost s n
  simp only [seqs, List.map_append, List.count_append] at hcount hlost ⊢
  omega

theorem handed_increasing (s : State α) (hs : Kept s) (hf : Fifo.Sound (ledger s)) :
    (seqs s.handed).Pairwise (· < ·) := by
  have hsub : (seqs s.handed).Sublist (List.range s.pushed.length) := by
    rw [← hs.numbered]
    exact ((List.sublist_append_left s.handed s.q).trans hf.ordered).map Entry.seq
  exact List.pairwise_lt_range.sublist hsub

/-- While a task runs the drain loop is without the lock; whoever holds it when
the task is about to lock it is another thread, whose next step releases it. -/
theorem task_not_blocked (s : State α) (hs : LockOwned s) (hr : s.loop.runs = true) :
    s.lock ≠ some .loop ∧ ∀ e, s.pcs .task = .checked e →
      (step s (.enter .task)).isSome ∨
      ∃ n t, s.lock = some (.caller (.producer n)) ∧
        step s (.push (.producer n)) = some t ∧ t.lock = none := by
  have hloop : s.lock ≠ some .loop := fun hk => by simp [hs.loop.mp hk, LoopPc.runs] at hr
  refine ⟨hloop, fun e he => ?_⟩
  cases hk : s.lock with
  | none => exact Or.inl (by simp [step, hk, he])
  | some holder =>
    cases holder with
    | loop => exact absurd hk hloop
    | caller a =>
      obtain ⟨e', bounded, hpc⟩ := (hs.caller a).mp hk
      cases a with
      | task => simp [he] at hpc
      | producer n =>
        have hpush : step s (.push (.producer n)) =
            some { (append (evict s bounded) e').setPc (.producer n) .pushed with
              lock := none } := by
          simp only [step, hpc]
        exact Or.inr ⟨n, _, rfl, hpush, rfl⟩

/-- Conservation and order. No pop of an empty queue; every push is queued,
handed over, evicted or cleared, exactly one of these and once; what is handed
over is handed over in push order, before everything still queued; and a task
that posts again does not wait for a lock the loop thread keeps. -/
theorem queue_conservation (s : State α) (h : Reach step always init s) :
    s.fault = false ∧
    ((s.handed ++ s.lost.map Prod.snd ++ s.q).Perm s.pushed ∧
      ∀ n < s.pushed.length,
        (seqs s.q).count n + (seqs s.handed).count n +
          (seqs (s.lostBy .evicted)).count n + (seqs (s.lostBy .cleared)).count n = 1) ∧
    ((s.handed ++ s.q).Sublist s.pushed ∧ (seqs s.handed).Pairwise (· < ·)) ∧
    (s.loop.runs = true → s.lock ≠ some .loop ∧ ∀ e, s.pcs .task = .checked e →
      (step s (.enter .task)).isSome ∨
      ∃ n t, s.lock = some (.caller (.producer n)) ∧
        step s (.push (.producer n)) = some t ∧ t.lock = none) := by
  have hk := reach_kept h
  have hf := reach_queue_sound h
  exact ⟨hk.guarded, ⟨hf.conserved, fate_unique s hk hf⟩,
    ⟨hf.ordered, handed_increasing s hk hf⟩, task_not_blocked s (reach_lock h)⟩

-- A capacity of one, an eviction, a task that posts again, and a clear.
def mixedRun : List (Action ℕ) :=
  [.setCapacity 1, .call (.producer 0) 10, .enter (.producer 0), .push (.producer 0),
    .call (.producer 1) 11, .enter (.producer 1), .send (.producer 0), .push (.producer 1),
    .call (.producer 2) 12, .enter (.producer 2), .push (.producer 2), .wake, .acquire,
    .test, .call .task 13, .enter .task, .push .task, .clear (.producer 0)]

theorem queue_conservation_mixed_run :
    seqs (final step always init mixedRun).handed = [1] ∧
    seqs ((final step always init mixedRun).lostBy .evicted) = [0] ∧
    seqs ((final step always init mixedRun).lostBy .cleared) = [2, 3] ∧
    (final step always init mixedRun).fault = false :=
  ⟨rfl, rfl, rfl, (queue_conservation _ (reach_final rfl)).1⟩

def LoopPc.retests : LoopPc α → Bool
  | .idle => false
  | .leaving => false
  | _ => true

/-- Whenever something is queued, somebody is on the way to it. -/
def Awake (s : State α) : Prop :=
  s.q ≠ [] → s.pending = true ∨ s.loop.retests = true ∨ ∃ a, s.pcs a = .pushed

theorem awake_setPc (s : State α) (a : Actor) (pc : Pc α) (hs : Awake s)
    (ha : s.pcs a ≠ .pushed) : Awake (s.setPc a pc) := by
  intro hq
  rcases hs hq with hp | hl | ⟨b, hb⟩
  · exact Or.inl hp
  · exact Or.inr (Or.inl hl)
  · have hab : b ≠ a := fun hba => ha (hba ▸ hb)
    exact Or.inr (Or.inr ⟨b, by rw [setPc_other s a b pc hab, hb]⟩)

theorem step_awake (s : State α) (a : Action α) (t : State α) (hs : Awake s)
    (h : step s a = some t) : Awake t := by
  cases a with
  | call a e =>
    rcases step_call h with rfl | ⟨-, hpc, -, rfl⟩
    · exact hs
    · exact awake_setPc s a _ hs (by simp [hpc])
  | enter a =>
    obtain ⟨e, -, hpc, rfl⟩ := step_enter h
    exact awake_setPc s a _ hs (by simp [hpc])
  | push a =>
    -- the producer itself now stands between its push and its wake-up
    obtain ⟨e, bounded, -, rfl⟩ := step_push h
    exact fun _ => Or.inr (Or.inr ⟨a, by simp⟩)
  | send a =>
    obtain ⟨-, rfl⟩ := step_send h
    exact fun _ => Or.inl rfl
  | setCapacity c => obtain rfl := Option.some.inj h; exact hs
  | clear a =>
    obtain ⟨-, -, -, rfl⟩ := step_clear h
    exact fun hq => absurd rfl hq
  | close => obtain rfl := Option.some.inj h; exact hs
  | wake =>
    -- the flag is cleared before the drain, so the drain's own test covers it
    obtain ⟨-, -, rfl⟩ := step_wake h
    exact fun _ => Or.inr (Or.inl rfl)
  | acquire =>
    obtain ⟨-, -, rfl⟩ := step_acquire h
    exact fun _ => Or.inr (Or.inl rfl)
  | test =>
    obtain ⟨-, rfl⟩ := step_test h
    rcases drainTest_cases s with ⟨hq, hd⟩ | ⟨e, rest, -, hd⟩
    · rw [hd]
      exact fun hq' => absurd hq hq'
    · rw [hd]
      exact fun _ => Or.inr (Or.inl rfl)
  | finish =>
    obtain ⟨e, -, -, rfl⟩ := step_finish h
    exact fun _ => Or.inr (Or.inl rfl)
  | leave =>
    obtain ⟨hl, rfl⟩ := step_leave h
    intro hq
    rcases hs hq with hp | hr | hb
    · exact Or.inl hp
    · simp [hl, LoopPc.retests] at hr
    · exact Or.inr (Or.inr hb)

theorem reach_awake {s : State α} (h : Reach step always init s) : Awake s :=
  h.invariant (fun hq => absurd rfl hq) fun s a t hs _ hst => step_awake s a t hs hst

/-- The use `node_async_call` makes of its queue: capacity zero, no clearing. -/
def Plain (_ : State α) : Action α → Prop
  | .setCapacity c => c = 0
  | .clear _ => False
  | _ => True

/-- Nothing is lost: the capacity stays zero and no caller has read another. -/
structure Lossless (s : State α) : Prop where
  capacity : s.capacity = 0
  unbounded : ∀ a e bounded, s.pcs a = .locked e bounded → bounded = false
  lost : s.lost = []

theorem lossless_setPc (s : State α) (a : Actor) (pc : Pc α) (hs : Lossless s)
    (hpc : ∀ e bounded, pc = .locked e bounded → bounded = false) : Lossless (s.setPc a pc) := by
  refine ⟨hs.capacity, fun b e bounded hb => ?_, hs.lost⟩
  by_cases hba : b = a
  · subst hba
    exact hpc e bounded (by simpa using hb)
  · rw [setPc_other s a b pc hba] at hb
    exact hs.unbounded b e bounded hb

theorem step_lossless (s : State α) (a : Action α) (t : State α) (hs : Lossless s)
    (ha : Plain s a) (h : step s a = some t) : Lossless t := by
  cases a with
  | call a e =>
    rcases step_call h with rfl | ⟨-, -, -, rfl⟩
    · exact hs
    · exact lossless_setPc s a _ hs (by simp)
  | enter a =>
    obtain ⟨e, -, -, rfl⟩ := step_enter h
    have hset := lossless_setPc s a (.locked e (s.capacity != 0)) hs (by simp [hs.capacity])
    exact ⟨hset.capacity, hset.unbounded, hset.lost⟩
  | push a =>
    obtain ⟨e, bounded, hpc, rfl⟩ := step_push h
    have hb := hs.unbounded a e bounded hpc
    have hsame : evict s bounded = s := by simp [evict, hb]
    have happ : Lossless (append s e) := ⟨hs.capacity, hs.unbounded, hs.lost⟩
    have hset := lossless_setPc (append s e) a .pushed happ (by simp)
    rw [hsame]
    exact ⟨hset.capacity, hset.unbounded, hset.lost⟩
  | send a =>
    obtain ⟨-, rfl⟩ := step_send h
    have hset := lossless_setPc s a .idle hs (by simp)
    exact ⟨hset.capacity, hset.unbounded, hset.lost⟩
  | setCapacity c =>
    obtain rfl := Option.some.inj h
    exact ⟨ha, hs.unbounded, hs.lost⟩
  | clear a => exact ha.elim
  | close => obtain rfl := Option.some.inj h; exact ⟨hs.capacity, hs.unbounded, hs.lost⟩
  | wake => obtain ⟨-, -, rfl⟩ := step_wake h; exact ⟨hs.capacity, hs.unbounded, hs.lost⟩
  | acquire => obtain ⟨-, -, rfl⟩ := step_acquire h; exact ⟨hs.capacity, hs.unbounded, hs.lost⟩
  | test =>
    obtain ⟨-, rfl⟩ := step_test h
    rcases drainTest_cases s with ⟨-, hd⟩ | ⟨e, rest, -, hd⟩ <;> rw [hd] <;>
      exact ⟨hs.capacity, hs.unbounded, hs.lost⟩
  | finish => obtain ⟨e, -, -, rfl⟩ := step_finish h; exact ⟨hs.capacity, hs.unbounded, hs.lost⟩
  | leave => obtain ⟨-, rfl⟩ := step_leave h; exact ⟨hs.capacity, hs.unbounded, hs.lost⟩

theorem reach_lossless {s : State α} (h : Reach step Plain init s) : Lossless s :=
  h.invariant ⟨rfl, fun _ _ _ h => by simp [init] at h, rfl⟩ fun s a t => step_lossless s a t

/-- With capacity zero and no clearing the pushes are, in order, those handed
over followed by those still queued. -/
theorem handed_then_queued {s : State α} (h : Reach step Plain init s) :
    s.handed ++ s.q = s.pushed :=
  Fifo.lossless_exact (reach_queue_sound h) (reach_lossless h).lost

theorem current_pushed {s : State α} (h : Reach step always init s) {e : Entry α}
    (hl : s.loop = .running e) : e ∈ s.pushed := by
  have hexec := (reach_kept h).executed
  have hsub := (List.sublist_append_left s.handed s.q).trans (reach_queue_sound h).ordered
  simp only [hl, LoopPc.current] at hexec
  apply hsub.subset
  simp [← hexec]

theorem step_executed {s t : State α} {a : Action α} (h : step s a = some t) :
    (∃ e, a = .finish ∧ s.loop = .running e ∧ t.executed = s.executed ++ [e]) ∨
      (a ≠ .finish ∧ t.executed = s.executed) := by
  cases a with
  | call a e => rcases step_call h with rfl | ⟨-, -, -, rfl⟩ <;> exact Or.inr ⟨by simp, rfl⟩
  | enter a => obtain ⟨e, -, -, rfl⟩ := step_enter h; exact Or.inr ⟨by simp, rfl⟩
  | push a =>
    obtain ⟨e, bounded, -, rfl⟩ := step_push h
    rcases evict_cases s bounded with he | ⟨_, _, -, -, -, he⟩ <;>
      exact Or.inr ⟨by simp, by simp [he, append]⟩
  | send a => obtain ⟨-, rfl⟩ := step_send h; exact Or.inr ⟨by simp, rfl⟩
  | setCapacity c => obtain rfl := Option.some.inj h; exact Or.inr ⟨by simp, rfl⟩
  | clear a => obtain ⟨-, -, -, rfl⟩ := step_clear h; exact Or.inr ⟨by simp, rfl⟩
  | close => obtain rfl := Option.some.inj h; exact Or.inr ⟨by simp, rfl⟩
  | wake => obtain ⟨-, -, rfl⟩ := step_wake h; exact Or.inr ⟨by simp, rfl⟩
  | acquire => obtain ⟨-, -, rfl⟩ := step_acquire h; exact Or.inr ⟨by simp, rfl⟩
  | test =>
    obtain ⟨-, rfl⟩ := step_test h
    rcases drainTest_cases s with ⟨-, hd⟩ | ⟨e, rest, -, hd⟩ <;>
      exact Or.inr ⟨by simp, by simp [hd]⟩
  | finish => obtain ⟨e, hl, -, rfl⟩ := step_finish h; exact Or.inl ⟨e, rfl, hl, rfl⟩
  | leave => obtain ⟨-, rfl⟩ := step_leave h; exact Or.inr ⟨by simp, rfl⟩

def State.Carries (s : State α) (e : α) : Prop :=
  (∃ a, s.pcs a = .checked e ∨ ∃ bounded, s.pcs a = .locked e bounded) ∨
    ∃ x ∈ s.pushed, x.elem = e

theorem carries_setPc {s : State α} {a : Actor} {pc : Pc α} {e : α}
    (hpc : pc = .checked e ∨ (∃ bounded, pc = .locked e bounded) → s.Carries e)
    (h : (s.setPc a pc).Carries e) : s.Carries e := by
  rcases h with ⟨b, hb⟩ | hx
  · by_cases hba : b = a
    · subst hba
      exact hpc (by simpa using hb)
    · rw [setPc_other s a b pc hba] at hb
      exact Or.inl ⟨b, hb⟩
  · exact Or.inr hx

theorem step_carries {s t : State α} {a : Action α} {e : α} (h : step s a = some t)
    (ht : t.Carries e) : s.Carries e ∨ ∃ caller, a = .call caller e := by
  cases a with
  | call a e' =>
    rcases step_call h with rfl | ⟨-, -, -, rfl⟩
    · exact Or.inl ht
    · by_cases he : e' = e
      · exact Or.inr ⟨a, by rw [he]⟩
      · exact Or.inl (carries_setPc (by simp [he]) ht)
  | enter a =>
    obtain ⟨e', -, hpc, rfl⟩ := step_enter h
    refine Or.inl (carries_setPc (a := a) (fun hx => ?_) ht)
    obtain rfl : e' = e := by simpa using hx
    exact Or.inl ⟨a, Or.inl hpc⟩
  | push a =>
    obtain ⟨e', bounded, hpc, rfl⟩ := step_push h
    have hap : (append (evict s bounded) e').Carries e := carries_setPc (by simp) ht
    have hsame : (evict s bounded).pcs = s.pcs ∧ (evict s bounded).pushed = s.pushed := by
      rcases evict_cases s bounded with he | ⟨_, _, -, -, -, he⟩ <;> simp [he]
    rcases hap with ⟨b, hb⟩ | ⟨x, hx, hxe⟩
    · exact Or.inl (Or.inl ⟨b, by simpa [append, hsame.1] using hb⟩)
    · simp only [append, hsame.2, List.mem_append, List.mem_singleton] at hx
      rcases hx with hx | rfl
      · exact Or.inl (Or.inr ⟨x, hx, hxe⟩)
      · exact Or.inl (Or.inl ⟨a, Or.inr ⟨bounded, by rw [hpc, ← hxe]⟩⟩)
  | send a =>
    obtain ⟨-, rfl⟩ := step_send h
    have hidle : (s.setPc a .idle).Carries e := ht
    exact Or.inl (carries_setPc (by simp) hidle)
  | setCapacity c => obtain rfl := Option.some.inj h; exact Or.inl ht
  | clear a => obtain ⟨-, -, -, rfl⟩ := step_clear h; exact Or.inl ht
  | close => obtain rfl := Option.some.inj h; exact Or.inl ht
  | wake => obtain ⟨-, -, rfl⟩ := step_wake h; exact Or.inl ht
  | acquire => obtain ⟨-, -, rfl⟩ := step_acquire h; exact Or.inl ht
  | test =>
    obtain ⟨-, rfl⟩ := step_test h
    rcases drainTest_cases s with ⟨-, hd⟩ | ⟨x, rest, -, hd⟩ <;> rw [hd] at ht <;>
      exact Or.inl ht
  | finish => obtain ⟨x, -, -, rfl⟩ := step_finish h; exact Or.inl ht
  | leave => obtain ⟨-, rfl⟩ := step_leave h; exact Or.inl ht

theorem rest_executed {s : State α} (h : Reach step Plain init s) (hpcs : ∀ a, s.pcs a = .idle)
    (hp : s.pending = false) (hl : s.loop = .idle) : s.executed = s.pushed := by
  have hq : s.q = [] := by
    by_contra hq
    rcases reach_awake h.weaken hq with hpend | hret | ⟨a, ha⟩
    · simp [hp] at hpend
    · simp [hl, LoopPc.retests] at hret
    · simp [hpcs a] at ha
  have hexec := (reach_kept h.weaken).executed
  have hall := handed_then_queued h
  simp only [hl, LoopPc.current, List.append_nil] at hexec
  simpa [hq, hexec] using hall

/-- No lost wake-up: at every moment something queued has a pending wake-up, a
drain that will test again, or a producer about to wake the loop; so once all
of these are over, every task pushed has been executed. -/
theorem no_lost_wakeup :
    (∀ s : State α, Reach step always init s →
      s.q ≠ [] → s.pending = true ∨ s.loop.retests = true ∨ ∃ a, s.pcs a = .pushed) ∧
    (∀ s : State α, Reach step Plain init s →
      (∀ a, s.pcs a = .idle) → s.pending = false → s.loop = .idle → s.executed = s.pushed) :=
  ⟨fun _ h => reach_awake h, fun _ h => rest_executed h⟩

instance (s : State α) (a : Action α) : Decidable (Plain s a) := by
  cases a <;> simp only [Plain] <;> infer_instance

-- Two producers; the second push lands while the first task runs, and its
-- wake-up leads to a second drain, which finds the queue empty.
def twoProducers : List (Action ℕ) :=
  [.call (.producer 0) 10, .enter (.producer 0), .push (.producer 0), .send (.producer 0),
    .wake, .acquire, .test, .call (.producer 1) 11, .enter (.producer 1), .push (.producer 1),
    .send (.producer 1), .finish, .acquire, .test, .finish, .acquire, .test, .leave, .wake,
    .acquire, .test, .leave]

theorem no_lost_wakeup_two_producers :
    (final step Plain init twoProducers).executed = [⟨0, 10⟩, ⟨1, 11⟩] ∧
    (final step Plain init twoProducers).executed =
      (final step Plain init twoProducers).pushed := by
  refine ⟨rfl, no_lost_wakeup.2 _ (reach_final rfl) (fun a => ?_) rfl rfl⟩
  rcases a with (_ | _ | n) | _ <;> rfl

end AgoraRtm.AsyncQueue
