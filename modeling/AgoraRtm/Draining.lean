import AgoraRtm.Delivery
import AgoraRtm.Progress

/-!
# What the loop thread gets done

Left to itself the loop thread drains the queue, returns from `on_event` and
emits what `setImmediate` has put off, in a bounded number of steps.
-/

set_option autoImplicit false

namespace AgoraRtm.Delivery
open Runs NativeEvents

/-- The steps of the loop thread. A check phase begins where an immediate waits
and ends where none is left. -/
def LoopThread (s : Pipe) : Action → Prop
  | .queue .wake | .queue .acquire | .queue .test | .queue .finish | .queue .leave => True
  | .checkBegin => s.immediates ≠ []
  | .immediate => True
  | .checkEnd => s.immediates = []
  | _ => False

instance (s : Pipe) : (a : Action) → Decidable (LoopThread s a)
  | .queue .wake | .queue .acquire | .queue .test | .queue .finish | .queue .leave
  | .immediate => inferInstanceAs (Decidable True)
  | .checkBegin => inferInstanceAs (Decidable (s.immediates ≠ []))
  | .checkEnd => inferInstanceAs (Decidable (s.immediates = []))
  | .construct _ | .callback .. | .queue (.call ..) | .queue (.enter _) | .queue (.push _)
  | .queue (.send _) | .queue (.setCapacity _) | .queue (.clear _)
  | .queue .close => inferInstanceAs (Decidable False)

def loopWork : AsyncQueue.LoopPc Posted → ℕ
  | .idle => 0
  | .leaving => 1
  | .testing => 2
  | .entering => 3
  | .relocking => 3
  | .running _ => 9

def checkWork (s : Pipe) : ℕ := if s.checking then 1 else if s.immediates = [] then 0 else 2

def work (s : Pipe) : ℕ :=
  8*s.queue.q.length+loopWork s.queue.loop+(if s.queue.pending then 4 else 0)+
    3*s.immediates.length+checkWork s

theorem runTask_length (handlers : List Handler) (p : Posted) :
    (runTask handlers p).length ≤ 1 := by
  unfold runTask
  split
  · exact Nat.zero_le 1
  · split
    · exact Nat.zero_le 1
    · exact Nat.le_refl 1

theorem checkWork_le (s : Pipe) : checkWork s ≤ 2 := by
  unfold checkWork
  split
  · decide
  · split <;> decide

section Steps

variable {s t : Pipe} {a : Action}

theorem loopThread_cases (ha : LoopThread s a) (h : step s a = some t) :
    (∃ b q, a = .queue b ∧ b ∈ [.wake, .acquire, .test, .finish, .leave] ∧
      AsyncQueue.step s.queue b = some q ∧
      t = { s with queue := q, immediates := s.immediates ++ fired s b }) ∨
    (a = .checkBegin ∧ s.immediates ≠ [] ∧ s.checking = false ∧ t = { s with checking := true }) ∨
    (∃ e rest, a = .immediate ∧ s.checking = true ∧ s.immediates = e :: rest ∧
      t = { s with immediates := rest, emitted := s.emitted ++ [e] }) ∨
    (a = .checkEnd ∧ s.immediates = [] ∧ s.checking = true ∧ t = { s with checking := false }) := by
  cases a with
  | construct kind => exact ha.elim
  | callback caller handler m cb => exact ha.elim
  | queue b =>
    left
    have hmoved : b ∈ [.wake, .acquire, .test, .finish, .leave] ∧ queueStep s b = some t := by
      cases b with
      | wake =>
        simp only [step] at h
        split at h
        · cases h
        · exact ⟨by simp, h⟩
      | acquire | test | finish | leave => exact ⟨by simp, h⟩
      | call | enter | push | send | setCapacity | clear | close => exact ha.elim
    obtain ⟨q, hq, rfl⟩ := Option.map_eq_some_iff.mp hmoved.2
    exact ⟨b, q, rfl, hmoved.1, hq, rfl⟩
  | checkBegin =>
    right; left
    simp only [step] at h
    split at h
    · rename_i hl hc
      exact ⟨rfl, ha, hc, (Option.some.inj h).symm⟩
    · cases h
  | immediate =>
    right; right; left
    simp only [step] at h
    split at h
    · rename_i e rest hc hi
      exact ⟨e, rest, rfl, hc, hi, (Option.some.inj h).symm⟩
    · cases h
  | checkEnd =>
    right; right; right
    simp only [step] at h
    split at h
    · rename_i hc
      exact ⟨rfl, ha, hc, (Option.some.inj h).symm⟩
    · cases h

theorem fired_length (s : Pipe) (b : AsyncQueue.Action Posted) : (fired s b).length ≤ 1 := by
  unfold fired
  split
  · split
    · exact runTask_length _ _
    · exact Nat.zero_le 1
  · exact Nat.zero_le 1

theorem fired_nil {b : AsyncQueue.Action Posted} (hb : b ≠ .finish) : fired s b = [] := by
  cases b <;> first | rfl | exact absurd rfl hb

theorem queue_lowers {b : AsyncQueue.Action Posted} {q : AsyncQueue.State Posted}
    (hb : b ∈ [AsyncQueue.Action.wake, .acquire, .test, .finish, .leave])
    (h : AsyncQueue.step s.queue b = some q) :
    work { s with queue := q, immediates := s.immediates ++ fired s b } < work s := by
  by_cases hfin : b = .finish
  · subst hfin
    obtain ⟨e, hl, -, rfl⟩ := AsyncQueue.step_finish h
    have hlen := fired_length s .finish
    refine Nat.lt_of_le_of_lt (Nat.add_le_add_left (checkWork_le _) _) ?_
    simp only [work, hl, loopWork, List.length_append]
    omega
  · have hnil := fired_nil (s := s) hfin
    simp only [List.mem_cons, List.not_mem_nil, or_false] at hb
    rcases hb with rfl | rfl | rfl | rfl | rfl
    · obtain ⟨hl, hp, rfl⟩ := AsyncQueue.step_wake h
      simp [work, checkWork, hnil, hl, hp, loopWork]
    · obtain ⟨hl, -, rfl⟩ := AsyncQueue.step_acquire h
      rcases hl with hl | hl <;> simp [work, checkWork, hnil, hl, loopWork]
    · obtain ⟨hl, rfl⟩ := AsyncQueue.step_test h
      rcases AsyncQueue.drainTest_cases s.queue with ⟨-, hd⟩ | ⟨e, rest, hq, hd⟩
      · simp [work, checkWork, hnil, hd, hl, loopWork]
      · simp only [work, checkWork, hnil, hd, hl, hq, loopWork, List.append_nil, List.length_cons]
        omega
    · exact absurd rfl hfin
    · obtain ⟨hl, rfl⟩ := AsyncQueue.step_leave h
      simp [work, checkWork, hnil, hl, loopWork]

theorem loop_lowers (ha : LoopThread s a) (h : step s a = some t) : work t < work s := by
  rcases loopThread_cases ha h with ⟨b, q, -, hb, hq, rfl⟩ | ⟨-, hi, hc, rfl⟩ |
    ⟨e, rest, -, hc, hi, rfl⟩ | ⟨-, hi, hc, rfl⟩
  · exact queue_lowers hb hq
  · simp [work, checkWork, hi, hc]
  · simp only [work, checkWork, hi, hc, List.length_cons, ↓reduceIte]
    omega
  · simp [work, checkWork, hi, hc]

end Steps

section Rest

variable {s t : Pipe} {a : Action}

theorem LoopThread.used (ha : LoopThread s a) : Used s a := by
  cases a with
  | queue b => cases b <;> trivial
  | _ => trivial

theorem loop_keeps (ha : LoopThread s a) (h : step s a = some t) :
    t.queue.pcs = s.queue.pcs ∧ t.queue.pushed = s.queue.pushed := by
  rcases loopThread_cases ha h with ⟨b, q, -, hb, hq, rfl⟩ | ⟨-, -, -, rfl⟩ |
    ⟨e, rest, -, -, -, rfl⟩ | ⟨-, -, -, rfl⟩
  · simp only [List.mem_cons, List.not_mem_nil, or_false] at hb
    rcases hb with rfl | rfl | rfl | rfl | rfl
    · obtain ⟨-, -, rfl⟩ := AsyncQueue.step_wake hq
      exact ⟨rfl, rfl⟩
    · obtain ⟨-, -, rfl⟩ := AsyncQueue.step_acquire hq
      exact ⟨rfl, rfl⟩
    · obtain ⟨-, rfl⟩ := AsyncQueue.step_test hq
      rcases AsyncQueue.drainTest_cases s.queue with ⟨-, hd⟩ | ⟨e, rest, -, hd⟩ <;> simp [hd]
    · obtain ⟨e, -, -, rfl⟩ := AsyncQueue.step_finish hq
      exact ⟨rfl, rfl⟩
    · obtain ⟨-, rfl⟩ := AsyncQueue.step_leave hq
      exact ⟨rfl, rfl⟩
  · exact ⟨rfl, rfl⟩
  · exact ⟨rfl, rfl⟩
  · exact ⟨rfl, rfl⟩

/-- No caller is inside `async_call`, and so many elements have been pushed. -/
structure Quiet (pushed : List (AsyncQueue.Entry Posted)) (s : Pipe) : Prop where
  reached : Reach step Used init s
  callers : ∀ actor, s.queue.pcs actor = .idle
  pushed : s.queue.pushed = pushed

theorem Quiet.kept {pushed : List (AsyncQueue.Entry Posted)} (hs : Quiet pushed s)
    (ha : LoopThread s a) (h : step s a = some t) : Quiet pushed t := by
  obtain ⟨hpcs, hpushed⟩ := loop_keeps ha h
  refine ⟨hs.reached.tail ha.used h, ?_, hpushed.trans hs.pushed⟩
  intro actor
  rw [hpcs]
  exact hs.callers actor

theorem Quiet.unlocked {pushed : List (AsyncQueue.Entry Posted)} (hs : Quiet pushed s)
    (hl : s.queue.loop ≠ .testing) : s.queue.lock = none := by
  have howned := AsyncQueue.reach_lock (reach_piped hs.reached).queue.weaken
  cases hk : s.queue.lock with
  | none => rfl
  | some holder =>
    cases holder with
    | loop => exact absurd (howned.loop.mp hk) hl
    | caller actor =>
      obtain ⟨e, bounded, hpc⟩ := (howned.caller actor).mp hk
      rw [hs.callers actor] at hpc
      cases hpc

theorem Quiet.resting {pushed : List (AsyncQueue.Entry Posted)} (hs : Quiet pushed s)
    (h : AtRest step LoopThread s) :
    s.queue.pending = false ∧ s.queue.loop = .idle ∧ s.immediates = [] := by
  have hloop : s.queue.loop = .idle := by
    cases hl : s.queue.loop with
    | idle => rfl
    | entering =>
      have hstuck := h (.queue .acquire) trivial
      simp [step, queueStep, AsyncQueue.step, hl, hs.unlocked (by simp [hl])] at hstuck
    | testing =>
      have hstuck := h (.queue .test) trivial
      simp [step, queueStep, AsyncQueue.step, hl] at hstuck
    | running e =>
      have hstuck := h (.queue .finish) trivial
      simp [step, queueStep, AsyncQueue.step, hl, hs.callers .task] at hstuck
    | relocking =>
      have hstuck := h (.queue .acquire) trivial
      simp [step, queueStep, AsyncQueue.step, hl, hs.unlocked (by simp [hl])] at hstuck
    | leaving =>
      have hstuck := h (.queue .leave) trivial
      simp [step, queueStep, AsyncQueue.step, hl] at hstuck
  have hchecking : s.checking = false := by
    cases hc : s.checking with
    | false => rfl
    | true =>
      cases hi : s.immediates with
      | nil =>
        have hstuck := h .checkEnd hi
        simp [step, hc] at hstuck
      | cons e rest =>
        have hstuck := h .immediate trivial
        simp [step, hc, hi] at hstuck
  refine ⟨?_, hloop, ?_⟩
  · cases hp : s.queue.pending with
    | false => rfl
    | true =>
      have hstuck := h (.queue .wake) trivial
      simp [step, queueStep, AsyncQueue.step, hloop, hp, hchecking] at hstuck
  · by_contra hi
    have hstuck := h .checkBegin hi
    simp [step, hloop, hchecking] at hstuck

end Rest

/-- Once no caller is inside `async_call` the loop thread alone emits every event
that was pushed, in push order: it cannot take more than `work` steps, and it
cannot stop before. -/
theorem loop_emits_all (s : Pipe) (h : Reach step Used init s)
    (hcallers : ∀ actor, s.queue.pcs actor = .idle) :
    (∀ as t, run step LoopThread s as = some t → as.length ≤ work s) ∧
    (∀ t, Reach step LoopThread s t → AtRest step LoopThread t →
      t.emitted = s.queue.pushed.map fun e => e.elem.event) ∧
    ∃ as t, run step LoopThread s as = some t ∧
      t.emitted = s.queue.pushed.map fun e => e.elem.event := by
  refine comes_to_rest (I := Quiet s.queue.pushed)
    (fun s a t hs ha ht => ⟨hs.kept ha ht, loop_lowers ha ht⟩) ?_ s ⟨h, hcallers, rfl⟩
  intro t ht hrest
  obtain ⟨hp, hl, hi⟩ := ht.resting hrest
  have hpiped := reach_piped ht.reached
  have hexec := AsyncQueue.rest_executed hpiped.queue ht.callers hp hl
  rw [← ht.pushed, ← hexec, ← hpiped.fired, hi, List.append_nil]

def postedRun : List Action :=
  [.construct .controller,
    .callback (.producer 0) 0 (fun _ => none) (.controller .onLoginSuccess),
    .queue (.enter (.producer 0)), .queue (.push (.producer 0)), .queue (.send (.producer 0)),
    .callback (.producer 1) 0 (fun _ => none) (.controller (.onLogout 3)),
    .queue (.enter (.producer 1)), .queue (.push (.producer 1)), .queue (.send (.producer 1))]

theorem loop_emits_all_posted :
    ∃ as t, run step LoopThread (final step Used init postedRun) as = some t ∧
      t.emitted = [⟨0, "LoginSuccess", []⟩, ⟨0, "Logout", [some (.int32 3)]⟩] :=
  (loop_emits_all _ (reach_final rfl) (by rintro ((_ | _ | n) | _) <;> rfl)).2.2

end AgoraRtm.Delivery
