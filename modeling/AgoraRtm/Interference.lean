import AgoraRtm.AdapterInvariant
import AgoraRtm.Unwinding

/-!
# The methods of an object do not interfere

`join` and `leave` of a channel, `login` and `logout` of the SDK share one
mutex and one table of listeners. What an observer of one method sees of the
object is the method's calls, its lock and its own listeners; the steps of the
other method leave that view alone.
-/

set_option autoImplicit false

namespace AgoraRtm.Adapter
open Runs OnceTable NativeEvents

variable {c : JsClass}

/-- The steps of a method. The rest of a continuation's turn belongs to the
call whose turn it is. -/
def Related (m : Method c) (s : Obj c) : Action c → Prop
  | .register => ∃ i ∈ s.running, i.1 = m
  | .call m' => m' = m
  | .timer i => i.1 = m
  | .resume i _ => i.1 = m
  | .emit event _ => m.Completes event

instance (m : Method c) (s : Obj c) : (a : Action c) → Decidable (Related m s a)
  | .register => inferInstanceAs (Decidable (∃ i ∈ s.running, i.1 = m))
  | .call m' => inferInstanceAs (Decidable (m' = m))
  | .timer i => inferInstanceAs (Decidable (i.1 = m))
  | .resume i _ => inferInstanceAs (Decidable (i.1 = m))
  | .emit event _ => inferInstanceAs (Decidable (m.Completes event))

def related (m : Method c) : List (Action c) → List (Action c) :=
  visible step (Related m) (init c)

def invokes (m : Method c) (s : Obj c) : Action c → Obj c → List ℕ
  | .resume i _, _ => if i.1 = m ∧ (s.calls i).phase = .passed then [i.2] else []
  | _, _ => []

def invocations (m : Method c) : List (Action c) → List ℕ := outputs step (invokes m) (init c)

def locks (m : Method c) : List (Action c) → List (Option Bool) :=
  outputs step (fun s a t => if Related m s a then [t.mutex.lockers m.key] else []) (init c)

def Obj.own (s : Obj c) (m : Method c) : List (Listener (Id c × Settle)) :=
  s.listeners.filter fun l => l.body.1.1 = m

/-- What an observer of a method sees of an object. -/
structure Alike (m : Method c) (s t : Obj c) : Prop where
  aside : Aside m s t
  own : t.own m = s.own m
  running : ∀ n, t.running = some (m, n) ↔ s.running = some (m, n)

variable {m : Method c}

theorem Alike.symm {s t : Obj c} (h : Alike m s t) : Alike m t s where
  aside := ⟨h.aside.issued.symm, fun n => (h.aside.calls n).symm, h.aside.lockers.symm⟩
  own := h.own.symm
  running n := (h.running n).symm

theorem Alike.trans {s t u : Obj c} (h : Alike m s t) (h' : Alike m t u) : Alike m s u where
  aside := ⟨h'.aside.issued.trans h.aside.issued,
    fun n => (h'.aside.calls n).trans (h.aside.calls n), h'.aside.lockers.trans h.aside.lockers⟩
  own := h'.own.trans h.own
  running n := (h'.running n).trans (h.running n)

theorem Related.touches {s : Obj c} {a : Action c} (h : ¬ Related m s a) : ¬ Touches m a := by
  cases a with
  | register => exact id
  | _ => exact h

theorem Sane.listener_own {s : Obj c} (h : Sane s) (l : Listener (Id c × Settle))
    (hl : l ∈ s.listeners) (hcomp : m.Completes l.event) : l.body.1.1 = m := by
  obtain ⟨o, ho, he⟩ := hcomp
  exact Method.onces_disjoint _ _ _ (h.listener l hl).2 o ho he.symm

theorem Sane.own_emit {s : Obj c} (h : Sane s) (event : String) (args : List JsValue)
    (ha : ¬ m.Completes event) : (s.emit event args).own m = s.own m := by
  rw [Obj.own, Obj.emit_listeners, List.filter_filter, Obj.own]
  apply List.filter_congr
  intro l hl
  by_cases hm : l.body.1.1 = m
  · have hevent : l.event ≠ event := by
      rintro rfl
      exact ha ⟨_, hm ▸ (h.listener l hl).2, rfl⟩
    simp [hm, hevent]
  · simp [hm]

theorem Sane.step_alike {s t : Obj c} {a : Action c} (h : Sane s) (ha : ¬ Related m s a)
    (hs : step s a = some t) : Alike m s t := by
  refine ⟨h.step_aside m (Related.touches ha) hs, ?_, ?_⟩
  · cases a with
    | call m' =>
      obtain ⟨-, rfl⟩ := step_call hs
      rfl
    | timer i =>
      obtain ⟨-, -, rfl⟩ := step_timer hs
      rfl
    | resume i r =>
      rcases h.resume_cases i r (step_resume hs).2 with
        ⟨err, -, -, rfl⟩ | ⟨-, -, rfl⟩ | ⟨msg, -, rfl⟩
      · rfl
      · rfl
      · rfl
    | register =>
      obtain ⟨i, hrun, rfl⟩ := step_register hs
      have hne : i.1 ≠ m := fun he => ha ⟨i, hrun, he⟩
      rw [Obj.own, Obj.own, Obj.register, List.filter_append]
      simp [hne]
    | emit event args =>
      obtain ⟨-, rfl⟩ := step_emit hs
      exact h.own_emit event args ha
  · intro n
    cases a with
    | call m' =>
      obtain ⟨-, rfl⟩ := step_call hs
      exact Iff.rfl
    | timer i =>
      obtain ⟨-, -, rfl⟩ := step_timer hs
      exact Iff.rfl
    | resume i r =>
      obtain ⟨hrun, hres⟩ := step_resume hs
      rcases h.resume_cases i r hres with ⟨err, -, -, rfl⟩ | ⟨-, -, rfl⟩ | ⟨msg, -, rfl⟩
      · exact Iff.rfl
      · have hne : i ≠ (m, n) := by
          rintro rfl
          exact ha rfl
        simp [Obj.inTurn, hrun, hne]
      · exact Iff.rfl
    | register =>
      obtain ⟨i, hrun, rfl⟩ := step_register hs
      have hne : i ≠ (m, n) := by
        rintro rfl
        exact ha ⟨_, hrun, rfl⟩
      simp [Obj.register, hrun, hne]
    | emit event args =>
      obtain ⟨-, rfl⟩ := step_emit hs
      rw [Obj.emit_running]

structure Twin (m : Method c) (s t : Obj c) : Prop where
  calls : ∀ n, s.calls (m, n) = t.calls (m, n)
  lockers : s.mutex.lockers m.key = t.mutex.lockers m.key

theorem Obj.once_twin (args : List JsValue) (b : Id c × Settle) (hb : b.1.1 = m) (s t : Obj c)
    (h : Twin m s t) : Twin m (once args b s) (once args b t) := by
  obtain ⟨⟨m', k⟩, x⟩ := b
  obtain rfl : m' = m := hb
  refine ⟨?_, ?_⟩
  · intro n
    by_cases hn : n = k
    · subst hn
      have hs := Obj.once_same args ((m', n), x) s
      have ht := Obj.once_same args ((m', n), x) t
      rw [hs, ht, h.calls n]
    · have hne : (m', n) ≠ (m', k) := by simpa using hn
      rw [Obj.once_other args ((m', k), x) s _ hne, Obj.once_other args ((m', k), x) t _ hne,
        h.calls n]
  · rw [Obj.once_lockers, Obj.once_lockers, if_pos rfl, if_pos rfl]

theorem Obj.emit_calls (s : Obj c) (event : String) (args : List JsValue) :
    (s.emit event args).calls = (bodies (once args) (listenersOf s.listeners event) s).calls := by
  rw [Obj.emit, emit_state]

theorem Obj.emit_mutex (s : Obj c) (event : String) (args : List JsValue) :
    (s.emit event args).mutex = (bodies (once args) (listenersOf s.listeners event) s).mutex := by
  rw [Obj.emit, emit_state]

theorem Sane.listenersOf_own {s : Obj c} (h : Sane s) (event : String) (hcomp : m.Completes event) :
    listenersOf s.listeners event = listenersOf (s.own m) event := by
  rw [listenersOf, listenersOf, Obj.own, List.filter_filter]
  apply List.filter_congr
  intro l hl
  by_cases he : l.event = event
  · have hown := h.listener_own l hl (he.symm ▸ hcomp)
    simp [he, hown]
  · simp [he]

theorem Alike.emit {s u : Obj c} (h : Alike m s u) (hs : Sane s) (hu : Sane u) (event : String)
    (args : List JsValue) (hcomp : m.Completes event) :
    Alike m (s.emit event args) (u.emit event args) := by
  have hsnap : listenersOf u.listeners event = listenersOf s.listeners event := by
    rw [hu.listenersOf_own event hcomp, hs.listenersOf_own event hcomp, h.own]
  have htwin : Twin m (bodies (Obj.once args) (listenersOf s.listeners event) s)
      (bodies (Obj.once args) (listenersOf s.listeners event) u) := by
    apply bodies_related
    · exact ⟨fun n => (h.aside.calls n).symm, h.aside.lockers.symm⟩
    · intro l hl s' u' hrel
      have hmem := mem_listenersOf.mp hl
      exact Obj.once_twin args l.body (hs.listener_own l hmem.1 (hmem.2.symm ▸ hcomp)) s' u' hrel
  refine ⟨⟨?_, ?_, ?_⟩, ?_, ?_⟩
  · rw [Obj.emit_issued, Obj.emit_issued, h.aside.issued]
  · intro n
    rw [Obj.emit_calls, Obj.emit_calls, hsnap, htwin.calls n]
  · rw [Obj.emit_mutex, Obj.emit_mutex, hsnap, htwin.lockers]
  · rw [Obj.own, Obj.own, Obj.emit_listeners, Obj.emit_listeners,
      List.filter_comm _ _ u.listeners, List.filter_comm _ _ s.listeners]
    exact congrArg (List.filter _) h.own
  · intro n
    rw [Obj.emit_running, Obj.emit_running, h.running n]

theorem Alike.setCall {s u : Obj c} (h : Alike m s u) (n : ℕ) (k : Call) :
    Alike m (s.setCall (m, n) k) (u.setCall (m, n) k) := by
  refine ⟨⟨h.aside.issued, ?_, h.aside.lockers⟩, h.own, h.running⟩
  intro n'
  by_cases hn : n' = n
  · simp [hn]
  · have hne : (m, n') ≠ (m, n) := by simpa using hn
    rw [Obj.setCall_other _ _ _ _ hne, Obj.setCall_other _ _ _ _ hne, h.aside.calls n']

theorem Alike.lock {s u : Obj c} (h : Alike m s u) : Alike m (s.lock m.key) (u.lock m.key) :=
  ⟨⟨h.aside.issued, h.aside.calls, by simp [Obj.lock]⟩, h.own, h.running⟩

theorem Alike.unlock {s u : Obj c} (h : Alike m s u) :
    Alike m (s.unlock m.key) (u.unlock m.key) :=
  ⟨⟨h.aside.issued, h.aside.calls, by simp⟩, h.own, h.running⟩

theorem Alike.waited {s u : Obj c} (h : Alike m s u) (n : ℕ) :
    u.waited (m, n) = s.waited (m, n) := by
  simp [Obj.waited, Mutex.wait, Mutex.locked, h.aside.lockers]

theorem Alike.step {s t u v : Obj c} {a : Action c} (h : Alike m s u) (hs : Sane s) (hu : Sane u)
    (ha : Related m s a) (hst : Adapter.step s a = some t) (huv : Adapter.step u a = some v) :
    Alike m t v := by
  cases a with
  | call m' =>
    obtain rfl : m' = m := ha
    obtain ⟨-, rfl⟩ := step_call hst
    obtain ⟨-, rfl⟩ := step_call huv
    have hset := h.setCall (s.issued m') ⟨.waiting, .pending, 0⟩
    refine ⟨⟨?_, ?_, h.aside.lockers⟩, h.own, h.running⟩
    · simp [Obj.issue, h.aside.issued]
    · intro n
      rw [Obj.issue, Obj.issue, h.aside.issued]
      exact hset.aside.calls n
  | timer i =>
    obtain ⟨m', n⟩ := i
    obtain rfl : m' = m := ha
    obtain ⟨-, -, rfl⟩ := step_timer hst
    obtain ⟨-, -, rfl⟩ := step_timer huv
    rw [h.waited n, h.aside.calls n]
    exact h.setCall n _
  | resume i r =>
    obtain ⟨m', n⟩ := i
    obtain rfl : m' = m := ha
    have hcall := h.aside.calls n
    rcases hs.resume_cases (m', n) r (step_resume hst).2 with ⟨err, hp, rfl, rfl⟩ |
      ⟨hp, hr, rfl⟩ | ⟨message, hp, rfl⟩
    · rcases hu.resume_cases (m', n) _ (step_resume huv).2 with ⟨err', -, he, rfl⟩ | ⟨-, hr', -⟩ |
        ⟨message', hp', -⟩
      · obtain rfl : err = err' := by simpa using he
        exact h.unlock.setCall n _
      · exact absurd rfl (hr' err)
      · simp [hcall, hp] at hp'
    · rcases hu.resume_cases (m', n) _ (step_resume huv).2 with ⟨err', -, rfl, -⟩ | ⟨-, -, rfl⟩ |
        ⟨message', hp', -⟩
      · exact absurd rfl (hr err')
      · have hset := h.lock.setCall n ⟨.done, .pending, 1⟩
        exact ⟨⟨hset.aside.issued, hset.aside.calls, hset.aside.lockers⟩, hset.own,
          fun _ => Iff.rfl⟩
      · simp [hcall, hp] at hp'
    · rcases hu.resume_cases (m', n) _ (step_resume huv).2 with ⟨err', hp', -, -⟩ | ⟨hp', -, -⟩ |
        ⟨message', hp', rfl⟩
      · simp [hcall, hp] at hp'
      · simp [hcall, hp] at hp'
      · obtain rfl : message = message' := by simpa [hcall, hp] using hp'
        exact h.unlock.setCall n _
  | register =>
    obtain ⟨i, hrun, rfl⟩ := step_register hst
    obtain ⟨j, hrun', rfl⟩ := step_register huv
    obtain ⟨i', hi', rfl⟩ := ha
    obtain rfl : i = i' := Option.some.inj (hrun.symm.trans hi')
    obtain rfl : i = j := Option.some.inj (((h.running i.2).mpr hrun).symm.trans hrun')
    refine ⟨⟨h.aside.issued, h.aside.calls, h.aside.lockers⟩, ?_, fun _ => Iff.rfl⟩
    have hown : u.listeners.filter (fun l => l.body.1.1 = i.1) =
        s.listeners.filter fun l => l.body.1.1 = i.1 := h.own
    simp only [Obj.own, Obj.register, List.filter_append, hown]
  | emit event args =>
    obtain ⟨-, rfl⟩ := step_emit hst
    obtain ⟨-, rfl⟩ := step_emit huv
    exact h.emit hs hu event args ha

theorem unwinding (m : Method c) : Unwinding step Sane (Alike m) (Related m) where
  inv := step_sane
  symm _ _ h := h.symm
  quiet _ _ _ _ hs h ha ht := (hs.step_alike ha ht).symm.trans h
  sync _ _ _ _ _ hs hu h ha _ ht hv := h.step hs hu ha ht hv

theorem invokes_observed (m : Method c) :
    Observed step Sane (Alike m) (Related m) (invokes m) where
  quiet s a t _ ha _ := by
    cases a with
    | resume i r =>
      have hne : i.1 ≠ m := ha
      simp [invokes, hne]
    | _ => rfl
  sync s a t u v _ _ h ha _ _ _ := by
    cases a with
    | resume i r =>
      obtain ⟨m', n⟩ := i
      obtain rfl : m' = m := ha
      simp [invokes, h.aside.calls n]
    | _ => rfl

theorem locks_observed (m : Method c) : Observed step Sane (Alike m) (Related m)
    (fun s a t => if Related m s a then [t.mutex.lockers m.key] else []) where
  quiet s a t _ ha _ := by simp [ha]
  sync s a t u v hs hu h ha ha' ht hv := by
    simp [ha, ha', (h.step hs hu ha ht hv).aside.lockers]

/-- Two runs of an object with the same steps of a method, and any other steps
between them, invoke the native method for the same calls in the same order,
find its lock the same after each of its steps, and settle its promises alike. -/
theorem methods_do_not_interfere (m : Method c) (as bs : List (Action c)) (s t : Obj c)
    (ha : run step always (init c) as = some s) (hb : run step always (init c) bs = some t)
    (hsame : related m as = related m bs) :
    invocations m as = invocations m bs ∧ locks m as = locks m bs ∧
    ∀ n, (s.calls (m, n)).promise = (t.calls (m, n)).promise := by
  have hview : Alike m (init c) (init c) := ⟨⟨rfl, fun _ => rfl, rfl⟩, rfl, fun _ => Iff.rfl⟩
  have hinvoked := (unwinding m).noninterference (invokes_observed m) ha hb init_sane init_sane
    hview hsame
  have hlocks := (unwinding m).noninterference (locks_observed m) ha hb init_sane init_sane
    hview hsame
  refine ⟨hinvoked.2, hlocks.2, ?_⟩
  intro n
  rw [hinvoked.1.aside.calls n]

-- A join on its own, and the same join with a leave around it that fails.
def joinAlone : List (Action .AgoraRtmChannel) :=
  [.call .join, .timer (.join, 0), .resume (.join, 0) (.accepted 0), .register,
    .emit "JoinFailure" [.scalar (.number 4)]]

def joinAndLeave : List (Action .AgoraRtmChannel) :=
  [.call .leave, .call .join, .timer (.leave, 0), .timer (.join, 0),
    .resume (.leave, 0) (.accepted 0), .register, .resume (.join, 0) (.accepted 0), .register,
    .emit "LeaveChannel" [.scalar (.number 1)], .emit "MemberLeft" [],
    .emit "JoinFailure" [.scalar (.number 4)]]

theorem join_ignores_leave :
    invocations .join joinAlone = invocations .join joinAndLeave ∧
    locks .join joinAlone = locks .join joinAndLeave ∧
    ∀ n, ((final step always (init .AgoraRtmChannel) joinAlone).calls (.join, n)).promise =
      ((final step always (init .AgoraRtmChannel) joinAndLeave).calls (.join, n)).promise :=
  methods_do_not_interfere .join joinAlone joinAndLeave _ _ rfl rfl (by decide)

end AgoraRtm.Adapter
