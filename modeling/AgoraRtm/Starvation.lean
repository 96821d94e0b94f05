import AgoraRtm.Draining

/-!
# Starvation of the emitted events

The loop thread leaves `on_event` only where it finds the queue empty, and emits
outside of it. While callbacks come in faster than their tasks are run, events
pile up behind `setImmediate`.
-/

set_option autoImplicit false

namespace AgoraRtm.Delivery
open Runs NativeEvents

/-- Each task finds another one queued when it returns. -/
def Busy (s : Pipe) : Action → Prop
  | .queue .finish => s.queue.q ≠ []
  | a => Used s a

/-- The loop thread is inside `on_event`, with a task or on the way to one. -/
structure Churning (s : Pipe) : Prop where
  loop : s.queue.loop.runs = true ∨
    (s.queue.loop = .relocking ∨ s.queue.loop = .testing) ∧ s.queue.q ≠ []
  checking : s.checking = false

section Starving

variable {s t : Pipe} {a : Action}

theorem LoopPc.runs_iff (l : AsyncQueue.LoopPc Posted) : l.runs = true ↔ ∃ e, l = .running e := by
  cases l <;> simp [AsyncQueue.LoopPc.runs]

theorem Churning.not_idle (h : Churning s) : s.queue.loop ≠ .idle := by
  rcases h.loop with hr | ⟨hl | hl, -⟩
  · obtain ⟨e, hl⟩ := (LoopPc.runs_iff _).mp hr
    simp [hl]
  · simp [hl]
  · simp [hl]

theorem Churning.queue (h : Churning s) {b : AsyncQueue.Action Posted}
    {q : AsyncQueue.State Posted} (hb : Busy s (.queue b)) (hq : AsyncQueue.step s.queue b = some q)
    (immediates : List Emitted) : Churning { s with queue := q, immediates := immediates } := by
  refine ⟨?_, h.checking⟩
  have hloop := h.loop
  cases b with
  | call actor e =>
    rcases AsyncQueue.step_call hq with rfl | ⟨-, -, -, rfl⟩ <;> exact hloop
  | enter actor => obtain ⟨e, -, -, rfl⟩ := AsyncQueue.step_enter hq; exact hloop
  | push actor =>
    obtain ⟨e, bounded, -, rfl⟩ := AsyncQueue.step_push hq
    have hsame : (AsyncQueue.evict s.queue bounded).loop = s.queue.loop := by
      rcases AsyncQueue.evict_cases s.queue bounded with he | ⟨_, _, -, -, -, he⟩ <;> simp [he]
    rcases hloop with hr | ⟨hl, -⟩
    · exact Or.inl (by simpa [AsyncQueue.append, hsame] using hr)
    · exact Or.inr ⟨by simpa [AsyncQueue.append, hsame] using hl, by simp [AsyncQueue.append]⟩
  | send actor => obtain ⟨-, rfl⟩ := AsyncQueue.step_send hq; exact hloop
  | setCapacity c => obtain rfl := Option.some.inj hq; exact hloop
  | clear actor => exact hb.elim
  | close => obtain rfl := Option.some.inj hq; exact hloop
  | wake => exact absurd (AsyncQueue.step_wake hq).1 h.not_idle
  | acquire =>
    obtain ⟨hl, -, rfl⟩ := AsyncQueue.step_acquire hq
    rcases hloop with hr | ⟨-, hne⟩
    · rcases hl with hl | hl <;> simp [hl, AsyncQueue.LoopPc.runs] at hr
    · exact Or.inr ⟨Or.inr rfl, hne⟩
  | test =>
    obtain ⟨hl, rfl⟩ := AsyncQueue.step_test hq
    rcases hloop with hr | ⟨-, hne⟩
    · simp [hl, AsyncQueue.LoopPc.runs] at hr
    · rcases AsyncQueue.drainTest_cases s.queue with ⟨hempty, -⟩ | ⟨e, rest, -, hd⟩
      · exact absurd hempty hne
      · rw [hd]
        exact Or.inl rfl
  | finish =>
    obtain ⟨e, -, -, rfl⟩ := AsyncQueue.step_finish hq
    exact Or.inr ⟨Or.inl rfl, hb⟩
  | leave =>
    have hl := (AsyncQueue.step_leave hq).1
    simp [hl, AsyncQueue.LoopPc.runs] at hloop

theorem Churning.step (h : Churning s) (ha : Busy s a) (hs : Delivery.step s a = some t) :
    Churning t ∧ t.emitted = s.emitted := by
  have hmoved : ∀ b, Busy s (.queue b) → queueStep s b = some t →
      Churning t ∧ t.emitted = s.emitted := by
    intro b hb hstep
    obtain ⟨q, hq, rfl⟩ := Option.map_eq_some_iff.mp hstep
    exact ⟨h.queue hb hq _, rfl⟩
  cases a with
  | construct kind =>
    obtain rfl := Option.some.inj hs
    exact ⟨⟨h.loop, h.checking⟩, rfl⟩
  | callback caller i m cb =>
    simp only [Delivery.step] at hs
    split at hs
    · split at hs
      · exact hmoved (.call caller _) trivial hs
      · cases hs
    · cases hs
  | queue b =>
    cases b with
    | call caller p => cases hs
    | wake =>
      simp only [Delivery.step] at hs
      split at hs
      · cases hs
      · exact hmoved _ ha hs
    | _ => exact hmoved _ ha hs
  | checkBegin =>
    simp only [Delivery.step] at hs
    split at hs
    · rename_i hl hc
      exact absurd hl h.not_idle
    · cases hs
  | immediate => simp [Delivery.step, h.checking] at hs
  | checkEnd => simp [Delivery.step, h.checking] at hs

theorem idle_kept {q r : AsyncQueue.State Posted} {b : AsyncQueue.Action Posted}
    (hl : q.loop = .idle) (hb : b ≠ .wake) (h : AsyncQueue.step q b = some r) : r.loop = .idle := by
  cases b with
  | call actor e => rcases AsyncQueue.step_call h with rfl | ⟨-, -, -, rfl⟩ <;> exact hl
  | enter actor => obtain ⟨e, -, -, rfl⟩ := AsyncQueue.step_enter h; exact hl
  | push actor =>
    obtain ⟨e, bounded, -, rfl⟩ := AsyncQueue.step_push h
    rcases AsyncQueue.evict_cases q bounded with he | ⟨_, _, -, -, -, he⟩ <;>
      simpa [AsyncQueue.append, he] using hl
  | send actor => obtain ⟨-, rfl⟩ := AsyncQueue.step_send h; exact hl
  | setCapacity c => obtain rfl := Option.some.inj h; exact hl
  | clear actor => obtain ⟨-, -, -, rfl⟩ := AsyncQueue.step_clear h; exact hl
  | close => obtain rfl := Option.some.inj h; exact hl
  | wake => exact absurd rfl hb
  | acquire => simp [AsyncQueue.step, hl] at h
  | test => simp [AsyncQueue.step, hl] at h
  | finish => simp [AsyncQueue.step, hl] at h
  | leave => simp [AsyncQueue.step, hl] at h

theorem step_phases (s : Pipe) (a : Action) (t : Pipe)
    (h : s.checking = true → s.queue.loop = .idle) (hs : step s a = some t)
    (hc : t.checking = true) : t.queue.loop = .idle := by
  have hmoved : ∀ b, (b = .wake → s.checking = false) → queueStep s b = some t →
      t.queue.loop = .idle := by
    intro b hb hstep
    obtain ⟨q, hq, rfl⟩ := Option.map_eq_some_iff.mp hstep
    refine idle_kept (h hc) ?_ hq
    intro hwake
    rw [hb hwake] at hc
    cases hc
  cases a with
  | construct kind =>
    obtain rfl := Option.some.inj hs
    exact h hc
  | callback caller i m cb =>
    simp only [step] at hs
    split at hs
    · split at hs
      · exact hmoved (.call caller _) (by simp) hs
      · cases hs
    · cases hs
  | queue b =>
    cases b with
    | call caller p => cases hs
    | wake =>
      simp only [step] at hs
      split at hs
      · cases hs
      · rename_i hfree
        exact hmoved .wake (fun _ => by simpa using hfree) hs
    | _ => exact hmoved _ (by simp) hs
  | checkBegin =>
    simp only [step] at hs
    split at hs
    · rename_i hl _
      obtain rfl := Option.some.inj hs
      exact hl
    · cases hs
  | immediate =>
    simp only [step] at hs
    split at hs
    · rename_i e rest hchecking _
      obtain rfl := Option.some.inj hs
      exact h hchecking
    · cases hs
  | checkEnd =>
    simp only [step] at hs
    split at hs
    · obtain rfl := Option.some.inj hs
      cases hc
    · cases hs

theorem reach_phases (h : Reach step Used init s) : s.checking = true → s.queue.loop = .idle :=
  h.invariant (I := fun s => s.checking = true → s.queue.loop = .idle)
    (fun hc => by cases hc) fun s a t hs _ ht => step_phases s a t hs ht

/-- A task is running, and everybody else is out of `async_call`. -/
structure Alone (s : Pipe) : Prop where
  reached : Reach step Used init s
  running : s.queue.loop.runs = true
  callers : ∀ actor, s.queue.pcs actor = .idle
  opened : s.queue.closed = false
  handler : s.handlers ≠ []

theorem Busy.used (ha : Busy s a) : Used s a := by
  cases a with
  | queue b => cases b <;> first | exact ha | trivial
  | _ => trivial

theorem Alone.churning (h : Alone s) : Churning s := by
  refine ⟨Or.inl h.running, ?_⟩
  cases hc : s.checking with
  | false => rfl
  | true =>
    have hl := reach_phases h.reached hc
    have hr := h.running
    simp [hl, AsyncQueue.LoopPc.runs] at hr

theorem Alone.unlocked (h : Alone s) : s.queue.lock = none := by
  refine Quiet.unlocked ⟨h.reached, h.callers, rfl⟩ ?_
  intro hl
  have hr := h.running
  simp [hl, AsyncQueue.LoopPc.runs] at hr

theorem queueStep_some {b : AsyncQueue.Action Posted} {q : AsyncQueue.State Posted}
    (hb : b ≠ .finish) (hq : AsyncQueue.step s.queue b = some q) :
    queueStep s b = some { s with queue := q } := by
  simp [queueStep, hq, fired_nil hb]

def success : Kind → Callback
  | .controller => .controller .onLoginSuccess
  | .channel => .channel .onJoinSuccess

theorem posting (q : AsyncQueue.State Posted) (n : ℕ) (p : Posted)
    (hcallers : ∀ actor, q.pcs actor = .idle) (hopen : q.closed = false) (hlock : q.lock = none) :
    ∃ q₁ q₂ q₃ q₄, AsyncQueue.step q (.call (.producer n) p) = some q₁ ∧
      AsyncQueue.step q₁ (.enter (.producer n)) = some q₂ ∧
      AsyncQueue.step q₂ (.push (.producer n)) = some q₃ ∧
      AsyncQueue.step q₃ (.send (.producer n)) = some q₄ ∧
      q₄.q ≠ [] ∧ (∀ actor, q₄.pcs actor = .idle) ∧ q₄.loop = q.loop ∧ q₄.closed = false ∧
      q₄.executed = q.executed := by
  let q₁ := q.setPc (.producer n) (.checked p)
  let q₂ : AsyncQueue.State Posted :=
    { q₁.setPc (.producer n) (.locked p (q.capacity != 0)) with lock := some (.caller (.producer n)) }
  let q₃ : AsyncQueue.State Posted :=
    { (AsyncQueue.append (AsyncQueue.evict q₂ (q.capacity != 0)) p).setPc (.producer n) .pushed with
      lock := none }
  have hkept : (AsyncQueue.evict q₂ (q.capacity != 0)).pcs = q₂.pcs ∧
      (AsyncQueue.evict q₂ (q.capacity != 0)).loop = q.loop ∧
      (AsyncQueue.evict q₂ (q.capacity != 0)).closed = false ∧
      (AsyncQueue.evict q₂ (q.capacity != 0)).executed = q.executed := by
    rcases AsyncQueue.evict_cases q₂ (q.capacity != 0) with he | ⟨_, _, -, -, -, he⟩ <;> rw [he] <;>
      exact ⟨rfl, rfl, hopen, rfl⟩
  obtain ⟨hpcs, hloop, hclosed, hexec⟩ := hkept
  refine ⟨q₁, q₂, q₃, { q₃.setPc (.producer n) .idle with pending := true }, ?_, ?_, ?_, ?_, ?_, ?_,
    hloop, hclosed, hexec⟩
  · simp [AsyncQueue.step, AsyncQueue.State.present, hcallers, hopen, q₁]
  · simp [AsyncQueue.step, hlock, q₁, q₂]
  · simp [AsyncQueue.step, q₂, q₃]
  · simp [AsyncQueue.step, q₃]
  · simp [q₃, AsyncQueue.append]
  · intro actor
    by_cases ha : actor = .producer n
    · subst ha
      simp
    · have hother : (AsyncQueue.evict q₂ (q.capacity != 0)).pcs actor = .idle := by
        rw [hpcs]
        simp [q₂, q₁, AsyncQueue.setPc_other _ _ _ _ ha, hcallers]
      simpa [AsyncQueue.setPc_other _ _ _ _ ha, q₃, AsyncQueue.append] using hother

theorem caller_reach {actor : AsyncQueue.Actor} {b : AsyncQueue.Action Posted}
    {q : AsyncQueue.State Posted} (hb : b = .enter actor ∨ b = .push actor ∨ b = .send actor)
    (hq : AsyncQueue.step s.queue b = some q) : Reach step Busy s { s with queue := q } := by
  have hbusy : Busy s (.queue b) := by rcases hb with rfl | rfl | rfl <;> trivial
  have hs : step s (.queue b) = some { s with queue := q } := by
    rcases hb with rfl | rfl | rfl <;> exact queueStep_some (by simp) hq
  exact Reach.single hbusy hs

theorem Alone.post (h : Alone s) :
    ∃ t, Reach step Busy s t ∧ Alone t ∧ t.queue.q ≠ [] ∧
      t.queue.executed = s.queue.executed := by
  obtain ⟨handler, others, hhandlers⟩ := List.exists_cons_of_ne_nil h.handler
  obtain ⟨task, hpost⟩ : ∃ task, (success handler.kind).post (fun _ => none) = some task := by
    cases handler.kind <;> exact ⟨_, rfl⟩
  have hkind : handler.kind = kindOf (success handler.kind) := by cases handler.kind <;> rfl
  obtain ⟨q₁, q₂, q₃, q₄, h₁, h₂, h₃, h₄, hq, hcallers, hloop, hclosed, hexec⟩ :=
    posting s.queue 0 ⟨0, task⟩ h.callers h.opened h.unlocked
  have hcall : step s (.callback (.producer 0) 0 (fun _ => none) (success handler.kind)) =
      some { s with queue := q₁ } := by
    simp [step, hhandlers, hpost, ← hkind, queueStep_some (by simp) h₁]
  have hreach : Reach step Busy s { s with queue := q₄ } :=
    (((Reach.single trivial hcall).trans (caller_reach (Or.inl rfl) h₂)).trans
      (caller_reach (Or.inr (Or.inl rfl)) h₃)).trans (caller_reach (Or.inr (Or.inr rfl)) h₄)
  refine ⟨{ s with queue := q₄ }, hreach, ?_, hq, hexec⟩
  exact ⟨h.reached.trans (hreach.mono fun _ _ => Busy.used), by simpa [hloop] using h.running,
    hcallers, hclosed, h.handler⟩

theorem Alone.next (h : Alone s) (hne : s.queue.q ≠ []) :
    ∃ t, Reach step Busy s t ∧ Alone t ∧
      t.queue.executed.length = s.queue.executed.length+1 := by
  obtain ⟨e, hl⟩ := (LoopPc.runs_iff _).mp h.running
  obtain ⟨next, rest, hq⟩ := List.exists_cons_of_ne_nil hne
  let u : Pipe := { s with
    queue := { s.queue with loop := .relocking, executed := s.queue.executed ++ [e] }
    immediates := s.immediates ++ runTask s.handlers e.elem }
  let v : Pipe := { u with queue := { u.queue with lock := some .loop, loop := .testing } }
  let t : Pipe := { v with queue := { v.queue with
    q := rest, lock := none, loop := .running next, handed := s.queue.handed ++ [next] } }
  have hfinish : step s (.queue .finish) = some u := by
    simp [step, queueStep, AsyncQueue.step, hl, h.callers, fired, u]
  have hacquire : step u (.queue .acquire) = some v :=
    queueStep_some (by simp) (by simp [AsyncQueue.step, u, h.unlocked])
  have htest : step v (.queue .test) = some t := by
    refine queueStep_some (by simp) ?_
    simp [AsyncQueue.step, AsyncQueue.drainTest, AsyncQueue.takeFront, v, u, hq]
  have hreach : Reach step Busy s t :=
    ((Reach.single (show Busy s (.queue .finish) from hne) hfinish).tail (by trivial) hacquire).tail
      (by trivial) htest
  refine ⟨t, hreach, ?_, by simp [t, v, u]⟩
  exact ⟨h.reached.trans (hreach.mono fun _ _ => Busy.used), rfl, h.callers, h.opened, h.handler⟩

theorem Alone.keeps_on (h : Alone s) (n : ℕ) :
    ∃ t, Reach step Busy s t ∧ Alone t ∧
      t.queue.executed.length = s.queue.executed.length+n := by
  induction n with
  | zero => exact ⟨s, Reach.refl s, h, rfl⟩
  | succ n ih =>
    obtain ⟨t, ht, halone, hlen⟩ := ih
    obtain ⟨u, hu, hualone, hq, hexec⟩ := halone.post
    obtain ⟨v, hv, hvalone, hlen'⟩ := hualone.next hq
    refine ⟨v, (ht.trans hu).trans hv, hvalone, ?_⟩
    rw [hlen', hexec, hlen]
    omega

theorem Churning.starved (h : Churning s) (ht : Reach Delivery.step Busy s t) :
    Churning t ∧ t.emitted = s.emitted := by
  refine ht.invariant (I := fun u => Churning u ∧ u.emitted = s.emitted) ⟨h, rfl⟩ ?_
  intro u a v hu ha hv
  obtain ⟨hchurning, hemitted⟩ := hu.1.step ha hv
  exact ⟨hchurning, hemitted.trans hu.2⟩

end Starving

/-- As long as each task finds another one queued when it returns, a drain does not
return and nothing is emitted; and where a task runs alone, that can go on for any
number of tasks. -/
theorem emission_starved (s : Pipe) :
    (Churning s → ∀ t, Reach step Busy s t → t.queue.loop ≠ .idle ∧ t.emitted = s.emitted) ∧
    (Alone s → ∀ n, ∃ t, Reach step Busy s t ∧
      t.queue.executed.length = s.queue.executed.length+n ∧ t.emitted = s.emitted) := by
  constructor
  · intro h t ht
    obtain ⟨hchurning, hemitted⟩ := h.starved ht
    exact ⟨hchurning.not_idle, hemitted⟩
  · intro h n
    obtain ⟨t, ht, -, hlen⟩ := h.keeps_on n
    exact ⟨t, ht, hlen, (h.churning.starved ht).2⟩

def runningRun : List Action :=
  [.construct .controller,
    .callback (.producer 0) 0 (fun _ => none) (.controller .onLoginSuccess),
    .queue (.enter (.producer 0)), .queue (.push (.producer 0)), .queue (.send (.producer 0)),
    .queue .wake, .queue .acquire, .queue .test]

theorem emission_starved_running : ∃ t,
    Reach step Busy (final step Used init runningRun) t ∧ t.queue.executed.length = 1000 ∧
      t.emitted = [] :=
  (emission_starved (final step Used init runningRun)).2 ⟨reach_final rfl, rfl,
    by rintro ((_ | _ | n) | _) <;> rfl, rfl, List.cons_ne_nil _ _⟩ 1000

end AgoraRtm.Delivery
