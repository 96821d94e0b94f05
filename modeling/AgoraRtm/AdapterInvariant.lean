import AgoraRtm.Emission

/-!
# The invariant of the adapter

Who owns the listeners and who the lock, in every reachable state. By it an
emission acts on the methods one by one: it leaves a method alone unless the
event is one of the method's completion events, and then it settles every call
of the method that is in flight and leaves the key unlocked.
-/

set_option autoImplicit false

namespace AgoraRtm.Adapter
open Runs OnceTable NativeEvents

variable {c : JsClass}

/-- What relates calls, listeners and locks. A call in flight owns a listener
for each of its completion events once its turn is over, so no such event can
pass it by; a locked key has a call in flight. -/
structure Sane (s : Obj c) : Prop where
  fresh : ∀ m n, s.issued m ≤ n → (s.calls (m, n)).phase = .unissued
  before : ∀ i, (s.calls i).phase ≠ .done →
    (s.calls i).promise = .pending ∧ (s.calls i).invoked = 0
  once : ∀ i, (s.calls i).invoked ≤ 1
  running : ∀ i, s.running = some i → s.InFlight i
  owns : ∀ i, s.InFlight i → s.running ≠ some i →
    ∀ o ∈ i.1.guarded.onces, ⟨o.event, (i, o.settle)⟩ ∈ s.listeners
  listener : ∀ l ∈ s.listeners,
    (s.calls l.body.1).phase = .done ∧ ⟨l.event, l.body.2⟩ ∈ l.body.1.1.guarded.onces
  locked : ∀ m, s.Locked m → ∃ n, s.InFlight (m, n)
  refused : ∀ i message, (s.calls i).phase = .refused message →
    message = i.1.key ++ " has been locked" ∧ s.mutex.lockers i.1.key ≠ none

theorem init_sane : Sane (init c) where
  fresh _ _ _ := rfl
  before _ _ := ⟨rfl, rfl⟩
  once _ := Nat.zero_le 1
  running _ h := by cases h
  owns _ h := absurd h.1 (Nat.lt_irrefl 0)
  listener _ h := by cases h
  locked _ h := by cases h
  refused _ _ h := by cases h

section Steps

variable {s t : Obj c}

theorem Sane.inFlight_done (h : Sane s) (i : Id c) (hi : s.InFlight i) :
    (s.calls i).phase = .done := by
  by_contra hne
  have hzero := (h.before i hne).2
  have hpos := hi.1
  omega

theorem Sane.issued_of_phase (h : Sane s) (i : Id c) (hi : (s.calls i).phase ≠ .unissued) :
    i.2 < s.issued i.1 := by
  by_contra hle
  exact hi (h.fresh i.1 i.2 (by omega))

theorem Sane.unissued_pending (h : Sane s) (m : Method c) (n : ℕ) (hn : s.issued m ≤ n) :
    (s.calls (m, n)).promise = .pending :=
  (h.before (m, n) (by rw [h.fresh m n hn]; simp)).1

theorem Sane.move (h : Sane s) (i : Id c) (p : Phase) (hold : (s.calls i).phase ≠ .done)
    (hi : i.2 < s.issued i.1)
    (hr : ∀ message, p = .refused message →
      message = i.1.key ++ " has been locked" ∧ s.mutex.lockers i.1.key ≠ none) :
    Sane (s.setCall i { s.calls i with phase := p }) := by
  have hfly : ∀ j, (s.setCall i { s.calls i with phase := p }).InFlight j ↔ s.InFlight j := by
    intro j
    by_cases hj : j = i
    · subst hj
      simp [Obj.InFlight]
    · simp [Obj.InFlight, Obj.setCall_other _ _ _ _ hj]
  refine ⟨?_, ?_, ?_, ?_, ?_, ?_, ?_, ?_⟩
  · intro m n hn
    have hne : (m, n) ≠ i := by
      rintro rfl
      exact absurd hi (Nat.not_lt.mpr hn)
    rw [Obj.setCall_other _ _ _ _ hne]
    exact h.fresh m n hn
  · intro j hj
    by_cases hji : j = i
    · subst hji
      simpa using h.before j hold
    · rw [Obj.setCall_other _ _ _ _ hji] at hj ⊢
      exact h.before j hj
  · intro j
    by_cases hji : j = i
    · subst hji
      simpa using h.once j
    · rw [Obj.setCall_other _ _ _ _ hji]
      exact h.once j
  · intro j hj
    exact (hfly j).mpr (h.running j hj)
  · intro j hj hrun
    exact h.owns j ((hfly j).mp hj) hrun
  · intro l hl
    have hne : l.body.1 ≠ i := fun he => hold (he ▸ (h.listener l hl).1)
    rw [Obj.setCall_other _ _ _ _ hne]
    exact h.listener l hl
  · intro m hm
    obtain ⟨n, hn⟩ := h.locked m hm
    exact ⟨n, (hfly _).mpr hn⟩
  · intro j message hj
    by_cases hji : j = i
    · subst hji
      exact hr message (by simpa using hj)
    · rw [Obj.setCall_other _ _ _ _ hji] at hj
      exact h.refused j message hj

theorem Sane.issue (h : Sane s) (m : Method c) : Sane (s.issue m) := by
  have hfresh := h.fresh m (s.issued m) (Nat.le_refl _)
  have hold : (s.calls (m, s.issued m)).phase ≠ .done := by simp [hfresh]
  have hbumped : Sane { s with issued := Function.update s.issued m (s.issued m+1) } := by
    refine ⟨?_, h.before, h.once, h.running, h.owns, h.listener, h.locked, h.refused⟩
    intro m' n hn
    apply h.fresh
    by_cases hm : m' = m
    · subst hm
      simp only [Function.update_self] at hn
      omega
    · simpa [hm] using hn
  have hmoved := hbumped.move (m, s.issued m) .waiting hold (by simp) (by simp)
  have hcall : s.calls (m, s.issued m) = ⟨.unissued, .pending, 0⟩ := by
    have hb := h.before (m, s.issued m) hold
    rcases hc : s.calls (m, s.issued m) with ⟨phase, promise, invoked⟩
    simp_all
  rw [hcall] at hmoved
  exact hmoved

theorem Sane.timer (h : Sane s) (i : Id c) (hi : (s.calls i).phase = .waiting) :
    Sane (s.setCall i { s.calls i with phase := s.waited i }) := by
  apply h.move i (s.waited i)
  · simp [hi]
  · exact h.issued_of_phase i (by simp [hi])
  · intro message hm
    unfold Obj.waited Mutex.wait Mutex.locked at hm
    cases hl : s.mutex.lockers i.1.key with
    | none => simp [hl] at hm
    | some b => cases b <;> simp_all

theorem Sane.resume_cases (h : Sane s) (i : Id c) (r : Native) (hs : s.resume i r = some t) :
    (∃ err, (s.calls i).phase = .passed ∧ r = .threw err ∧
      t = (s.unlock i.1.key).setCall i ⟨.done, .rejected (.thrown err), 1⟩) ∨
    ((s.calls i).phase = .passed ∧ (∀ err, r ≠ .threw err) ∧
      t = ((s.lock i.1.key).setCall i ⟨.done, .pending, 1⟩).inTurn i) ∨
    (∃ message, (s.calls i).phase = .refused message ∧
      t = (s.unlock i.1.key).setCall i ⟨.done, .rejected (.error message), 0⟩) := by
  unfold Obj.resume at hs
  split at hs
  · rename_i hp
    have hb := h.before i (by simp [hp])
    cases r with
    | threw err =>
      left
      refine ⟨err, hp, rfl, ?_⟩
      rw [← Option.some.inj hs]
      simp [Obj.enter, Obj.caught, Obj.settle, Obj.lock, Obj.unlock, Obj.setCall, Mutex.lock,
        Mutex.unlock, Promise.settle, hb]
    | _ =>
      right; left
      refine ⟨hp, by simp, ?_⟩
      rw [← Option.some.inj hs]
      simp [Obj.enter, Obj.lock, Obj.setCall, hb]
  · rename_i message hp
    have hb := h.before i (by simp [hp])
    right; right
    refine ⟨message, hp, ?_⟩
    rw [← Option.some.inj hs]
    simp [Obj.leaveWait, Obj.caught, Obj.settle, Obj.unlock, Obj.setCall, Promise.settle, hb]
  · cases hs

theorem inFlight_congr {i : Id c} (h : t.calls i = s.calls i) : t.InFlight i ↔ s.InFlight i := by
  simp [Obj.InFlight, h]

theorem locked_congr {m : Method c}
    (h : t.mutex.lockers m.key = s.mutex.lockers m.key) : t.Locked m ↔ s.Locked m := by
  simp [Obj.Locked, Mutex.locked, h]

theorem locked_unlock {m : Method c} (h : t.mutex = s.mutex.unlock m.key)
    (m' : Method c) : t.Locked m' ↔ m' ≠ m ∧ s.Locked m' := by
  by_cases hm : m' = m
  · subst hm
    simp [Obj.Locked, Mutex.locked, h]
  · have hkey : m'.key ≠ m.key := fun he => hm (Method.key_injective m' m he)
    simp [Obj.Locked, Mutex.locked, h, Mutex.unlock_other _ _ _ hkey, hm]

theorem locked_lock {m : Method c} (h : t.mutex = s.mutex.lock m.key)
    (m' : Method c) : t.Locked m' ↔ m' = m ∨ s.Locked m' := by
  by_cases hm : m' = m
  · subst hm
    simp [Obj.Locked, Mutex.locked, h]
  · have hkey : m'.key ≠ m.key := fun he => hm (Method.key_injective m' m he)
    simp [Obj.Locked, Mutex.locked, h, Mutex.lock_other _ _ _ hkey, hm]

theorem lock_kept (μ : Mutex) (key other : String) (h : μ.lockers other ≠ none) :
    (μ.lock key).lockers other ≠ none := by
  by_cases hkey : other = key
  · simp [hkey]
  · simpa [Mutex.lock_other _ _ _ hkey] using h

theorem unlock_kept (μ : Mutex) (key other : String) (h : μ.lockers other ≠ none) :
    (μ.unlock key).lockers other ≠ none := by
  by_cases hkey : other = key
  · simp [hkey]
  · simpa [Mutex.unlock_other _ _ _ hkey] using h

theorem Sane.turn (h : Sane s) (hrun : s.running = none) (i : Id c)
    (hold : (s.calls i).phase ≠ .done) (hi : i.2 < s.issued i.1)
    (hcalls : ∀ j, j ≠ i → t.calls j = s.calls j) (hissued : t.issued = s.issued)
    (hlisteners : t.listeners = s.listeners) (hdone : (t.calls i).phase = .done)
    (honce : (t.calls i).invoked ≤ 1)
    (hkept : ∀ key, s.mutex.lockers key ≠ none → t.mutex.lockers key ≠ none)
    (hrunning : ∀ j, t.running = some j → t.InFlight j)
    (howns : t.InFlight i → t.running = some i)
    (hlocked : ∀ m, t.Locked m → ∃ n, t.InFlight (m, n)) : Sane t := by
  refine ⟨?_, ?_, ?_, hrunning, ?_, ?_, hlocked, ?_⟩
  · intro m n hn
    rw [hissued] at hn
    have hne : (m, n) ≠ i := by
      rintro rfl
      exact absurd hi (Nat.not_lt.mpr hn)
    rw [hcalls _ hne]
    exact h.fresh m n hn
  · intro j hj
    have hji : j ≠ i := fun he => hj (he ▸ hdone)
    rw [hcalls j hji] at hj ⊢
    exact h.before j hj
  · intro j
    by_cases hji : j = i
    · rw [hji]
      exact honce
    · rw [hcalls j hji]
      exact h.once j
  · intro j hj hne
    have hji : j ≠ i := by
      rintro rfl
      exact hne (howns hj)
    rw [hlisteners]
    exact h.owns j ((inFlight_congr (hcalls j hji)).mp hj) (by simp [hrun])
  · intro l hl
    rw [hlisteners] at hl
    have hne : l.body.1 ≠ i := fun he => hold (he ▸ (h.listener l hl).1)
    rw [hcalls _ hne]
    exact h.listener l hl
  · intro j message hj
    have hji : j ≠ i := by
      rintro rfl
      simp [hdone] at hj
    rw [hcalls j hji] at hj
    exact ⟨(h.refused j message hj).1, hkept _ (h.refused j message hj).2⟩

theorem Sane.finish (h : Sane s) (hrun : s.running = none) (i : Id c) (p : Promise) (k : ℕ)
    (hold : (s.calls i).phase ≠ .done) (hi : i.2 < s.issued i.1) (hp : p ≠ .pending) (hk : k ≤ 1) :
    Sane ((s.unlock i.1.key).setCall i ⟨.done, p, k⟩) := by
  have hother : ∀ j, j ≠ i → ((s.unlock i.1.key).setCall i ⟨.done, p, k⟩).calls j = s.calls j :=
    fun j hj => Obj.setCall_other _ _ _ _ hj
  have hrest : ((s.unlock i.1.key).setCall i ⟨.done, p, k⟩).running = none := hrun
  apply h.turn hrun i hold hi hother rfl rfl (by simp) (by simpa using hk)
  · intro key hkey
    exact unlock_kept s.mutex i.1.key key hkey
  · intro j hj
    rw [hrest] at hj
    cases hj
  · intro hfly
    simp [Obj.InFlight, hp] at hfly
  · intro m hm
    obtain ⟨n, hn⟩ := h.locked m ((locked_unlock (s := s) rfl m).mp hm).2
    have hne : (m, n) ≠ i := by
      rintro rfl
      exact hold (h.inFlight_done _ hn)
    exact ⟨n, (inFlight_congr (hother _ hne)).mpr hn⟩

theorem Sane.enter (h : Sane s) (hrun : s.running = none) (i : Id c)
    (hold : (s.calls i).phase ≠ .done) (hi : i.2 < s.issued i.1) :
    Sane (((s.lock i.1.key).setCall i ⟨.done, .pending, 1⟩).inTurn i) := by
  have hother : ∀ j, j ≠ i →
      (((s.lock i.1.key).setCall i ⟨.done, .pending, 1⟩).inTurn i).calls j = s.calls j :=
    fun j hj => Obj.setCall_other _ _ _ _ hj
  have hself : (((s.lock i.1.key).setCall i ⟨.done, .pending, 1⟩).inTurn i).InFlight i := by
    simp [Obj.InFlight, Obj.inTurn]
  apply h.turn hrun i hold hi hother rfl rfl (by simp [Obj.inTurn]) (by simp [Obj.inTurn])
  · intro key hkey
    exact lock_kept s.mutex i.1.key key hkey
  · intro j hj
    obtain rfl : i = j := Option.some.inj hj
    exact hself
  · intro _
    rfl
  · intro m hm
    by_cases hmi : m = i.1
    · exact ⟨i.2, by rw [hmi]; exact hself⟩
    · have hm' := (locked_lock (s := s) rfl m).mp hm
      obtain ⟨n, hn⟩ := h.locked m (hm'.resolve_left hmi)
      have hne : (m, n) ≠ i := by
        rintro rfl
        exact hmi rfl
      exact ⟨n, (inFlight_congr (hother _ hne)).mpr hn⟩

theorem Sane.resume (h : Sane s) (hrun : s.running = none) (i : Id c) (r : Native)
    (hs : s.resume i r = some t) : Sane t := by
  rcases h.resume_cases i r hs with ⟨err, hp, -, rfl⟩ | ⟨hp, -, rfl⟩ | ⟨message, hp, rfl⟩
  · exact h.finish hrun i _ 1 (by simp [hp]) (h.issued_of_phase i (by simp [hp])) (by simp)
      (by simp)
  · exact h.enter hrun i (by simp [hp]) (h.issued_of_phase i (by simp [hp]))
  · exact h.finish hrun i _ 0 (by simp [hp]) (h.issued_of_phase i (by simp [hp])) (by simp)
      (by simp)

theorem Sane.register (h : Sane s) (i : Id c) (hrun : s.running = some i) :
    Sane (s.register i) := by
  refine ⟨h.fresh, h.before, h.once, ?_, ?_, ?_, h.locked, h.refused⟩
  · intro j hj
    cases hj
  · intro j hj _ o ho
    by_cases hji : j = i
    · subst hji
      exact List.mem_append_right _ (List.mem_map.mpr ⟨o, ho, rfl⟩)
    · have hne : s.running ≠ some j := by
        rw [hrun]
        simpa using Ne.symm hji
      exact List.mem_append_left _ (h.owns j hj hne o ho)
  · intro l hl
    rcases List.mem_append.mp hl with hl | hl
    · exact h.listener l hl
    · obtain ⟨o, ho, rfl⟩ := List.mem_map.mp hl
      exact ⟨h.inFlight_done i (h.running i hrun), ho⟩

theorem Sane.emit_aside (h : Sane s) (event : String) (args : List JsValue) (m : Method c)
    (hm : ¬ m.Completes event) :
    (∀ n, (s.emit event args).calls (m, n) = s.calls (m, n)) ∧
    (s.emit event args).mutex.lockers m.key = s.mutex.lockers m.key := by
  have hnone : ∀ l ∈ s.listeners, l.event = event → l.body.1.1 ≠ m := by
    intro l hl he hlm
    exact hm ⟨_, hlm ▸ (h.listener l hl).2, he⟩
  constructor
  · intro n
    apply Obj.emit_untouched
    intro l hl he hli
    exact hnone l hl he (by rw [hli])
  · apply Obj.emit_lockers_untouched
    intro l hl he hkey
    exact hnone l hl he (Method.key_injective _ _ hkey)

theorem Sane.emit_completes (h : Sane s) (hrun : s.running = none) (event : String)
    (args : List JsValue) (i : Id c) (o : Once) (ho : o ∈ i.1.guarded.onces)
    (he : o.event = event) (hi : s.InFlight i) :
    ((s.emit event args).calls i).promise = o.settle.outcome args ∧
    (s.emit event args).mutex.lockers i.1.key = some false := by
  subst he
  have hown := h.owns i hi (by simp [hrun]) o ho
  constructor
  · rw [Obj.emit_settles s o.event args i o.settle hown, hi.2]
    · rfl
    · intro l hl hev hli
      have hl2 := (h.listener l hl).2
      rw [hli] at hl2
      have heq := Method.onces_unique i.1 _ hl2 o ho hev
      rw [← heq]
  · exact Obj.emit_unlocks s o.event args _ hown rfl

theorem Sane.emit_inFlight (h : Sane s) (hrun : s.running = none) (event : String)
    (args : List JsValue) (i : Id c) :
    (s.emit event args).InFlight i ↔ ¬ i.1.Completes event ∧ s.InFlight i := by
  by_cases hm : i.1.Completes event
  · refine ⟨fun hi => ?_, fun hi => absurd hm hi.1⟩
    obtain ⟨o, ho, he⟩ := hm
    have hset := (h.emit_completes hrun event args i o ho he
      (Obj.emit_inFlight_before s event args i hi)).1
    have hpend := hi.2
    rw [hset] at hpend
    exact absurd hpend (Obj.outcome_ne_pending _ _)
  · rw [inFlight_congr ((h.emit_aside event args i.1 hm).1 i.2)]
    simp [hm]

theorem Sane.emit_locked (h : Sane s) (hrun : s.running = none) (event : String)
    (args : List JsValue) (m : Method c) (hm : (s.emit event args).Locked m) :
    s.Locked m ∧ ¬ m.Completes event := by
  by_cases hl : ∃ l ∈ s.listeners, l.event = event ∧ l.body.1.1 = m
  · obtain ⟨l, hmem, he, hlm⟩ := hl
    have hopen := Obj.emit_unlocks s event args l hmem he
    rw [hlm] at hopen
    simp [Obj.Locked, Mutex.locked, hopen] at hm
  · have hsame := Obj.emit_lockers_untouched s event args m.key fun l hmem he hkey =>
      hl ⟨l, hmem, he, Method.key_injective _ _ hkey⟩
    have hbefore : s.Locked m := by simpa [Obj.Locked, Mutex.locked, hsame] using hm
    refine ⟨hbefore, ?_⟩
    rintro ⟨o, ho, he⟩
    obtain ⟨n, hn⟩ := h.locked m hbefore
    exact hl ⟨_, h.owns (m, n) hn (by simp [hrun]) o ho, he, rfl⟩

theorem Sane.emit (h : Sane s) (hrun : s.running = none) (event : String) (args : List JsValue) :
    Sane (s.emit event args) := by
  have hphase : ∀ i, ((s.emit event args).calls i).phase = (s.calls i).phase := by
    intro i
    rw [Obj.emit_call]
  have hinvoked : ∀ i, ((s.emit event args).calls i).invoked = (s.calls i).invoked := by
    intro i
    rw [Obj.emit_call]
  have hlisteners := Obj.emit_listeners s event args
  refine ⟨?_, ?_, ?_, ?_, ?_, ?_, ?_, ?_⟩
  · intro m n hn
    rw [Obj.emit_issued] at hn
    rw [hphase]
    exact h.fresh m n hn
  · intro i hi
    rw [hphase] at hi
    have huntouched := Obj.emit_untouched s event args i fun l hl _ hli =>
      hi (hli ▸ (h.listener l hl).1)
    rw [huntouched]
    exact h.before i hi
  · intro i
    rw [hinvoked]
    exact h.once i
  · intro i hi
    rw [Obj.emit_running, hrun] at hi
    cases hi
  · intro i hi _ o ho
    obtain ⟨hne, hfly⟩ := (h.emit_inFlight hrun event args i).mp hi
    have hown := h.owns i hfly (by simp [hrun]) o ho
    rw [hlisteners]
    exact List.mem_filter.mpr ⟨hown, by simpa using fun he => hne ⟨o, ho, he⟩⟩
  · intro l hl
    rw [hlisteners] at hl
    rw [hphase]
    exact h.listener l (List.mem_filter.mp hl).1
  · intro m hm
    obtain ⟨hlocked, hne⟩ := h.emit_locked hrun event args m hm
    obtain ⟨n, hn⟩ := h.locked m hlocked
    exact ⟨n, (h.emit_inFlight hrun event args (m, n)).mpr ⟨hne, hn⟩⟩
  · intro i message hi
    rw [hphase] at hi
    refine ⟨(h.refused i message hi).1, ?_⟩
    by_cases hl : ∃ l ∈ s.listeners, l.event = event ∧ l.body.1.1.key = i.1.key
    · obtain ⟨l, hmem, he, hkey⟩ := hl
      rw [← hkey, Obj.emit_unlocks s event args l hmem he]
      simp
    · rw [Obj.emit_lockers_untouched s event args i.1.key fun l hmem he hkey =>
        hl ⟨l, hmem, he, hkey⟩]
      exact (h.refused i message hi).2

end Steps

theorem resume_not_done {s t : Obj c} {i : Id c} {r : Native} (hs : s.resume i r = some t) :
    (s.calls i).phase ≠ .done := by
  intro hd
  simp [Obj.resume, hd] at hs

section Inversion

variable {s t : Obj c}

theorem step_call {m : Method c} (hs : step s (.call m) = some t) :
    s.running = none ∧ t = s.issue m := by
  cases hrun : s.running with
  | some j => simp [step, hrun] at hs
  | none => exact ⟨rfl, by simpa only [step, hrun, Option.some.injEq, eq_comm] using hs⟩

theorem step_timer {i : Id c} (hs : step s (.timer i) = some t) :
    s.running = none ∧ (s.calls i).phase = .waiting ∧
      t = s.setCall i { s.calls i with phase := s.waited i } := by
  cases hrun : s.running with
  | some j => simp [step, hrun] at hs
  | none =>
    simp only [step, hrun] at hs
    split at hs
    · rename_i hw
      exact ⟨rfl, hw, (Option.some.inj hs).symm⟩
    · cases hs

theorem step_resume {i : Id c} {r : Native} (hs : step s (.resume i r) = some t) :
    s.running = none ∧ s.resume i r = some t := by
  cases hrun : s.running with
  | some j => simp [step, hrun] at hs
  | none => exact ⟨rfl, by simpa only [step, hrun] using hs⟩

theorem step_register (hs : step s .register = some t) :
    ∃ i, s.running = some i ∧ t = s.register i := by
  cases hrun : s.running with
  | some i => exact ⟨i, rfl, by simpa only [step, hrun, Option.some.injEq, eq_comm] using hs⟩
  | none => simp [step, hrun] at hs

theorem step_emit {event : String} {args : List JsValue}
    (hs : step s (.emit event args) = some t) : s.running = none ∧ t = s.emit event args := by
  cases hrun : s.running with
  | some j => simp [step, hrun] at hs
  | none => exact ⟨rfl, by simpa only [step, hrun, Option.some.injEq, eq_comm] using hs⟩

end Inversion

theorem Sane.resume_effect {s t : Obj c} (h : Sane s) (i : Id c) (r : Native)
    (hs : s.resume i r = some t) :
    (¬ s.Enters i r ∧ (∀ j, t.InFlight j ↔ s.InFlight j) ∧ t.mutex = s.mutex.unlock i.1.key ∧
      t.running = s.running) ∨
    (s.Enters i r ∧ (∀ j, t.InFlight j ↔ j = i ∨ s.InFlight j) ∧
      t.mutex = s.mutex.lock i.1.key) := by
  have hnot : ¬ s.InFlight i := fun hi => resume_not_done hs (h.inFlight_done i hi)
  have hsettled : ∀ (p : Promise) (k : ℕ), p ≠ .pending →
      ∀ j, ((s.unlock i.1.key).setCall i ⟨.done, p, k⟩).InFlight j ↔ s.InFlight j := by
    intro p k hp j
    by_cases hji : j = i
    · subst hji
      have hself : ¬ ((s.unlock j.1.key).setCall j ⟨.done, p, k⟩).InFlight j := by
        simp [Obj.InFlight, hp]
      simp [hself, hnot]
    · exact inFlight_congr (Obj.setCall_other _ _ _ _ hji)
  rcases h.resume_cases i r hs with ⟨err, hp, rfl, rfl⟩ | ⟨hp, hr, rfl⟩ | ⟨message, hp, rfl⟩
  · exact Or.inl ⟨by simp [Obj.Enters, Native.returns], hsettled _ _ (by simp), rfl, rfl⟩
  · right
    refine ⟨⟨hp, ?_⟩, ?_, rfl⟩
    · cases r with
      | threw err => exact absurd rfl (hr err)
      | failed code => rfl
      | accepted code => rfl
    · intro j
      by_cases hji : j = i
      · subst hji
        simp [Obj.InFlight, Obj.inTurn]
      · have hcall : (((s.lock i.1.key).setCall i ⟨.done, .pending, 1⟩).inTurn i).calls j =
            s.calls j := Obj.setCall_other _ _ _ _ hji
        rw [inFlight_congr hcall]
        simp [hji]
  · exact Or.inl ⟨by simp [Obj.Enters, hp], hsettled _ _ (by simp), rfl, rfl⟩

/-- Every step keeps the locks and the calls in flight, or is a continuation,
or an emission. -/
theorem Sane.step_cases {s t : Obj c} {a : Action c} (h : Sane s) (hs : step s a = some t) :
    ((∀ i, t.InFlight i ↔ s.InFlight i) ∧ t.mutex = s.mutex) ∨
    (∃ i r, a = .resume i r ∧ s.running = none ∧ s.resume i r = some t) ∨
    (∃ event args, a = .emit event args ∧ s.running = none ∧ t = s.emit event args) := by
  cases a with
  | call m =>
    obtain ⟨-, rfl⟩ := step_call hs
    refine Or.inl ⟨?_, rfl⟩
    intro i
    by_cases hi : i = (m, s.issued m)
    · subst hi
      have hb := h.before _ (by rw [h.fresh m _ (Nat.le_refl _)]; simp)
      simp [Obj.InFlight, Obj.issue, hb.2]
    · exact inFlight_congr (Obj.setCall_other _ _ _ _ hi)
  | timer i =>
    obtain ⟨-, -, rfl⟩ := step_timer hs
    refine Or.inl ⟨?_, rfl⟩
    intro j
    by_cases hji : j = i
    · subst hji
      simp [Obj.InFlight]
    · exact inFlight_congr (Obj.setCall_other _ _ _ _ hji)
  | resume i r =>
    obtain ⟨hrun, hres⟩ := step_resume hs
    exact Or.inr (Or.inl ⟨i, r, rfl, hrun, hres⟩)
  | register =>
    obtain ⟨i, -, rfl⟩ := step_register hs
    exact Or.inl ⟨fun _ => Iff.rfl, rfl⟩
  | emit event args =>
    obtain ⟨hrun, rfl⟩ := step_emit hs
    exact Or.inr (Or.inr ⟨event, args, rfl, hrun, rfl⟩)

def Touches (m : Method c) : Action c → Prop
  | .call m' => m' = m
  | .timer i => i.1 = m
  | .resume i _ => i.1 = m
  | .register => False
  | .emit event _ => m.Completes event

/-- What two states have in common for a method. -/
structure Aside (m : Method c) (s t : Obj c) : Prop where
  issued : t.issued m = s.issued m
  calls : ∀ n, t.calls (m, n) = s.calls (m, n)
  lockers : t.mutex.lockers m.key = s.mutex.lockers m.key

/-- Methods do not interfere: keys and completion events are their own. -/
theorem Sane.step_aside {s t : Obj c} {a : Action c} (h : Sane s) (m : Method c)
    (ha : ¬ Touches m a) (hs : step s a = some t) : Aside m s t := by
  cases a with
  | call m' =>
    obtain ⟨-, rfl⟩ := step_call hs
    have hne : m ≠ m' := fun he => ha he.symm
    exact ⟨by simp [Obj.issue, hne], fun n => Obj.setCall_other _ _ _ _ (by simp [hne]), rfl⟩
  | timer i =>
    obtain ⟨-, -, rfl⟩ := step_timer hs
    have hne : ∀ n, (m, n) ≠ i := fun n he => ha (he ▸ rfl)
    exact ⟨rfl, fun n => Obj.setCall_other _ _ _ _ (hne n), rfl⟩
  | resume i r =>
    have hne : ∀ n, (m, n) ≠ i := fun n he => ha (he ▸ rfl)
    have hkey : m.key ≠ i.1.key := fun he => ha (Method.key_injective _ _ he).symm
    rcases h.resume_cases i r (step_resume hs).2 with ⟨err, -, -, rfl⟩ | ⟨-, -, rfl⟩ | ⟨msg, -, rfl⟩
    · exact ⟨rfl, fun n => Obj.setCall_other _ _ _ _ (hne n), Mutex.unlock_other _ _ _ hkey⟩
    · exact ⟨rfl, fun n => Obj.setCall_other _ _ _ _ (hne n), Mutex.lock_other _ _ _ hkey⟩
    · exact ⟨rfl, fun n => Obj.setCall_other _ _ _ _ (hne n), Mutex.unlock_other _ _ _ hkey⟩
  | register =>
    obtain ⟨i, -, rfl⟩ := step_register hs
    exact ⟨rfl, fun _ => rfl, rfl⟩
  | emit event args =>
    obtain ⟨-, rfl⟩ := step_emit hs
    have haside := h.emit_aside event args m ha
    exact ⟨by rw [Obj.emit_issued], haside.1, haside.2⟩

theorem step_sane (s : Obj c) (a : Action c) (t : Obj c) (h : Sane s) (hs : step s a = some t) :
    Sane t := by
  cases a with
  | call m =>
    obtain ⟨-, rfl⟩ := step_call hs
    exact h.issue m
  | timer i =>
    obtain ⟨-, hw, rfl⟩ := step_timer hs
    exact h.timer i hw
  | resume i r =>
    obtain ⟨hrun, hres⟩ := step_resume hs
    exact h.resume hrun i r hres
  | register =>
    obtain ⟨i, hrun, rfl⟩ := step_register hs
    exact h.register i hrun
  | emit event args =>
    obtain ⟨hrun, rfl⟩ := step_emit hs
    exact h.emit hrun event args

theorem reach_sane {ok : Obj c → Action c → Prop} {s : Obj c} (h : Reach step ok (init c) s) :
    Sane s :=
  h.invariant init_sane fun s a t hs _ ht => step_sane s a t hs ht

section OneMore

variable {s : Obj c} {m : Method c}

def Obj.passing (s : Obj c) (m : Method c) : Obj c :=
  (s.issue m).setCall (m, s.issued m) ⟨.passed, .pending, 0⟩

def Obj.entering (s : Obj c) (m : Method c) : Obj c :=
  ((s.passing m).enter (m, s.issued m)).inTurn (m, s.issued m)

theorem step_issue (hrun : s.running = none) : step s (.call m) = some (s.issue m) := by
  simp [step, hrun]

theorem step_passing (hrun : s.running = none) (hopen : ¬ s.Locked m) :
    step (s.issue m) (.timer (m, s.issued m)) = some (s.passing m) := by
  have hlocked : s.mutex.locked m.key = false := by simpa [Obj.Locked] using hopen
  simp [step, Obj.passing, Obj.issue, hrun, Obj.waited, Mutex.wait, hlocked]

theorem step_entering (hrun : s.running = none) :
    step (s.passing m) (.resume (m, s.issued m) (.accepted 0)) = some (s.entering m) := by
  simp [step, Obj.passing, Obj.entering, Obj.issue, hrun, Obj.resume]

theorem entering_other (j : Id c) (hj : j ≠ (m, s.issued m)) :
    (s.entering m).calls j = s.calls j := by
  simp [Obj.entering, Obj.passing, Obj.inTurn, Obj.enter, Obj.lock, Obj.issue, Obj.setCall, hj]

theorem entering_inFlight : (s.entering m).InFlight (m, s.issued m) := by
  simp [Obj.entering, Obj.passing, Obj.InFlight, Obj.inTurn, Obj.enter]

end OneMore

end AgoraRtm.Adapter
