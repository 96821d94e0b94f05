import AgoraRtm.AdapterInvariant

/-!
# The size of the listener table

Whose once-listeners the table holds. Each call registers one for each of its
completion events; the one that fires is removed, the other stays. So the table
holds listeners of calls in flight only as long as no call with two completion
events is completed.
-/

set_option autoImplicit false

namespace AgoraRtm.Adapter
open Runs OnceTable NativeEvents

variable {c : JsClass}

def Obj.flying (s : Obj c) (m : Method c) : List (Id c) :=
  ((List.range (s.issued m)).map fun n => (m, n)).filter fun i => s.InFlight i

def methods : (c : JsClass) → List (Method c)
  | .AgoraRtmChannel => [.join, .leave]
  | .AgoraRtmSDK => [.login, .logout]

def Obj.allFlying (s : Obj c) : List (Id c) := (methods c).flatMap s.flying

theorem mem_methods (m : Method c) : m ∈ methods c := by
  cases m <;> decide

/-- The once-listeners belong to calls in flight, at most one for each
completion event of each call; so there are at most two for each call in flight. -/
structure Bounded (s : Obj c) : Prop where
  owned : ∀ l ∈ s.listeners, s.InFlight l.body.1
  single : ∀ i event, (s.listeners.filter fun l => l.event = event ∧ l.body.1 = i).length ≤ 1
  empty : (∀ i, ¬ s.InFlight i) → s.listeners = []
  length_le : s.listeners.length ≤ 2*s.allFlying.length

/-- No completion event of a method that has two is emitted while a call of the
method is in flight. -/
def Lone (s : Obj c) : Action c → Prop
  | .emit event _ => ∀ i, s.InFlight i → i.1.Completes event → i.1.guarded.onces.length = 1
  | _ => True

structure Registered (s : Obj c) : Prop where
  distinct : s.listeners.Pairwise fun l l' => l.body.1 = l'.body.1 → l.event ≠ l'.event
  unlistened : ∀ i, s.running = some i → ∀ l ∈ s.listeners, l.body.1 ≠ i

theorem init_registered : Registered (init c) where
  distinct := List.Pairwise.nil
  unlistened _ h := by cases h

theorem Method.onces_distinct (m : Method c) :
    m.guarded.onces.Pairwise fun o o' => o.event ≠ o'.event := by
  cases m <;> decide

theorem Method.onces_le (m : Method c) : m.guarded.onces.length ≤ 2 := by
  cases m <;> decide

theorem Method.other_once (m : Method c) (event : String) (hcomp : m.Completes event)
    (hlen : m.guarded.onces.length ≠ 1) : ∃ o ∈ m.guarded.onces, o.event ≠ event := by
  obtain ⟨o, ho, he⟩ := hcomp
  have hdistinct := m.onces_distinct
  match hm : m.guarded.onces with
  | [] => simp [hm] at ho
  | [_] => simp [hm] at hlen
  | a :: b :: rest =>
    rw [hm] at hdistinct
    have hne := (List.pairwise_cons.mp hdistinct).1 b (by simp)
    by_cases ha : a.event = event
    · exact ⟨b, by simp, fun hb => hne (ha.trans hb.symm)⟩
    · exact ⟨a, by simp, ha⟩

theorem step_registered (s : Obj c) (a : Action c) (t : Obj c) (hsane : Sane s) (h : Registered s)
    (hs : step s a = some t) : Registered t := by
  cases a with
  | call m =>
    obtain ⟨-, rfl⟩ := step_call hs
    exact ⟨h.distinct, h.unlistened⟩
  | timer i =>
    obtain ⟨-, -, rfl⟩ := step_timer hs
    exact ⟨h.distinct, h.unlistened⟩
  | resume i r =>
    obtain ⟨hrun, hres⟩ := step_resume hs
    -- the listeners belong to calls whose continuation is over
    have hnew : ∀ l ∈ s.listeners, l.body.1 ≠ i := by
      rintro l hl rfl
      exact resume_not_done hres (hsane.listener l hl).1
    rcases hsane.resume_cases i r hres with ⟨err, -, -, rfl⟩ | ⟨-, -, rfl⟩ | ⟨msg, -, rfl⟩
    · exact ⟨h.distinct, h.unlistened⟩
    · refine ⟨h.distinct, ?_⟩
      intro j hj
      obtain rfl : i = j := Option.some.inj hj
      exact hnew
    · exact ⟨h.distinct, h.unlistened⟩
  | register =>
    obtain ⟨i, hrun, rfl⟩ := step_register hs
    refine ⟨List.pairwise_append.mpr ⟨h.distinct, ?_, ?_⟩, ?_⟩
    · rw [List.pairwise_map]
      refine i.1.onces_distinct.imp ?_
      intro o o' hne _
      exact hne
    · intro l hl l' hl' he
      obtain ⟨o, -, rfl⟩ := List.mem_map.mp hl'
      exact absurd he (h.unlistened i hrun l hl)
    · intro j hj
      cases hj
  | emit event args =>
    obtain ⟨hrun, rfl⟩ := step_emit hs
    refine ⟨?_, ?_⟩
    · rw [Obj.emit_listeners]
      exact h.distinct.filter _
    · intro i hi
      rw [Obj.emit_running, hrun] at hi
      cases hi

theorem reach_registered {ok : Obj c → Action c → Prop} {s : Obj c}
    (h : Reach step ok (init c) s) : Sane s ∧ Registered s :=
  h.invariant (I := fun s => Sane s ∧ Registered s) ⟨init_sane, init_registered⟩
    fun s a t hs _ ht => ⟨step_sane s a t hs.1 ht, step_registered s a t hs.1 hs.2 ht⟩

theorem Registered.single {s : Obj c} (h : Registered s) (i : Id c) (event : String) :
    (s.listeners.filter fun l => l.event = event ∧ l.body.1 = i).length ≤ 1 := by
  have hpair := h.distinct.filter fun l => l.event = event ∧ l.body.1 = i
  have hmem : ∀ l ∈ s.listeners.filter (fun l => l.event = event ∧ l.body.1 = i),
      l.event = event ∧ l.body.1 = i :=
    fun l hl => by simpa using (List.mem_filter.mp hl).2
  generalize s.listeners.filter (fun l => l.event = event ∧ l.body.1 = i) = ls at hpair hmem ⊢
  match ls with
  | [] => simp
  | [_] => simp
  | l :: l' :: rest =>
    have hl := hmem l (by simp)
    have hl' := hmem l' (by simp)
    have hne := (List.pairwise_cons.mp hpair).1 l' (by simp)
    exact absurd (hl.1.trans hl'.1.symm) (hne (hl.2.trans hl'.2.symm))

theorem mem_allFlying {s : Obj c} (h : Sane s) (i : Id c) : i ∈ s.allFlying ↔ s.InFlight i := by
  obtain ⟨m, n⟩ := i
  simp only [Obj.allFlying, Obj.flying, List.mem_flatMap, List.mem_filter, List.mem_map,
    List.mem_range, decide_eq_true_eq]
  constructor
  · rintro ⟨m', -, -, hfly⟩
    exact hfly
  · intro hfly
    have hlt := h.issued_of_phase (m, n) (by simp [h.inFlight_done _ hfly])
    exact ⟨m, mem_methods m, ⟨n, hlt, rfl⟩, hfly⟩

theorem Sane.listeners_subset {s : Obj c} (h : Sane s)
    (howned : ∀ l ∈ s.listeners, s.InFlight l.body.1) :
    s.listeners ⊆ s.allFlying.flatMap fun i =>
      i.1.guarded.onces.map fun o => ⟨o.event, (i, o.settle)⟩ := by
  intro l hl
  rw [List.mem_flatMap]
  refine ⟨l.body.1, (mem_allFlying h _).mpr (howned l hl), ?_⟩
  exact List.mem_map.mpr ⟨_, (h.listener l hl).2, rfl⟩

theorem flatMap_length_le {α β : Type*} (f : α → List β) (k : ℕ) (hf : ∀ a, (f a).length ≤ k)
    (l : List α) : (l.flatMap f).length ≤ k*l.length := by
  induction l with
  | nil => simp
  | cons a rest ih =>
    have ha := hf a
    simp only [List.flatMap_cons, List.length_append, List.length_cons, Nat.mul_add, Nat.mul_one]
    omega

theorem Registered.bounded {s : Obj c} (h : Registered s) (hsane : Sane s)
    (howned : ∀ l ∈ s.listeners, s.InFlight l.body.1) : Bounded s := by
  refine ⟨howned, h.single, ?_, ?_⟩
  · intro hnone
    rw [List.eq_nil_iff_forall_not_mem]
    intro l hl
    exact hnone _ (howned l hl)
  · have hnodup : s.listeners.Nodup := by
      refine h.distinct.imp ?_
      rintro l l' hne rfl
      exact hne rfl rfl
    refine Nat.le_trans (hnodup.length_le_of_subset (hsane.listeners_subset howned)) ?_
    apply flatMap_length_le
    intro i
    simpa using i.1.onces_le

theorem Sane.stays_inFlight {s t : Obj c} {a : Action c} (h : Sane s) (hs : step s a = some t)
    (i : Id c) (hi : s.InFlight i) :
    t.InFlight i ∨ ∃ event args, a = .emit event args ∧ i.1.Completes event := by
  rcases h.step_cases hs with ⟨hfly, -⟩ | ⟨j, r, rfl, -, hres⟩ | ⟨event, args, rfl, hrun, rfl⟩
  · exact Or.inl ((hfly i).mpr hi)
  · rcases h.resume_effect j r hres with ⟨-, hfly, -⟩ | ⟨-, hfly, -⟩
    · exact Or.inl ((hfly i).mpr hi)
    · exact Or.inl ((hfly i).mpr (Or.inr hi))
  · by_cases hc : i.1.Completes event
    · exact Or.inr ⟨event, args, rfl, hc⟩
    · exact Or.inl ((h.emit_inFlight hrun event args i).mpr ⟨hc, hi⟩)

theorem Sane.step_listener {s t : Obj c} {a : Action c} (h : Sane s) (hs : step s a = some t)
    (l : Listener (Id c × Settle)) (hl : l ∈ t.listeners) :
    (l ∈ s.listeners ∧ ∀ event args, a = .emit event args → l.event ≠ event) ∨
    (a = .register ∧ s.running = some l.body.1) := by
  cases a with
  | call m =>
    obtain ⟨-, rfl⟩ := step_call hs
    exact Or.inl ⟨hl, by simp⟩
  | timer i =>
    obtain ⟨-, -, rfl⟩ := step_timer hs
    exact Or.inl ⟨hl, by simp⟩
  | resume i r =>
    rcases h.resume_cases i r (step_resume hs).2 with ⟨err, -, -, rfl⟩ | ⟨-, -, rfl⟩ | ⟨msg, -, rfl⟩
    · exact Or.inl ⟨hl, by simp⟩
    · exact Or.inl ⟨hl, by simp⟩
    · exact Or.inl ⟨hl, by simp⟩
  | register =>
    obtain ⟨i, hrun, rfl⟩ := step_register hs
    rcases List.mem_append.mp hl with hold | hnew
    · exact Or.inl ⟨hold, by simp⟩
    · obtain ⟨o, -, rfl⟩ := List.mem_map.mp hnew
      exact Or.inr ⟨rfl, hrun⟩
  | emit event args =>
    obtain ⟨-, rfl⟩ := step_emit hs
    rw [Obj.emit_listeners] at hl
    have hl' := List.mem_filter.mp hl
    refine Or.inl ⟨hl'.1, ?_⟩
    intro event' args' he
    obtain ⟨rfl, rfl⟩ : event = event' ∧ args = args' := by simpa using he
    simpa using hl'.2

theorem step_owned (s : Obj c) (a : Action c) (t : Obj c) (h : Sane s)
    (howned : ∀ l ∈ s.listeners, s.InFlight l.body.1) (hok : Lone s a) (hs : step s a = some t) :
    ∀ l ∈ t.listeners, t.InFlight l.body.1 := by
  intro l hl
  rcases h.step_listener hs l hl with ⟨hold, hkept⟩ | ⟨rfl, hrun⟩
  · rcases h.stays_inFlight hs _ (howned l hold) with hfly | ⟨event, args, rfl, hcomp⟩
    · exact hfly
    · -- its method has one completion event, and the listener is for another
      obtain ⟨o, ho⟩ := List.length_eq_one_iff.mp (hok _ (howned l hold) hcomp)
      obtain ⟨o', ho', he⟩ := hcomp
      have hmem := (h.listener l hold).2
      rw [ho, List.mem_singleton] at ho' hmem
      have hevent : l.event = event := by rw [← he, ho', ← hmem]
      exact absurd hevent (hkept event args rfl)
  · rcases h.stays_inFlight hs _ (h.running _ hrun) with hfly | ⟨event, args, ha, -⟩
    · exact hfly
    · cases ha

theorem reach_bounded {s : Obj c} (h : Reach step Lone (init c) s) : Bounded s := by
  have howned : Sane s ∧ ∀ l ∈ s.listeners, s.InFlight l.body.1 :=
    h.invariant (I := fun s => Sane s ∧ ∀ l ∈ s.listeners, s.InFlight l.body.1)
      ⟨init_sane, fun l hl => by cases hl⟩ fun s a t hs hok ht =>
        ⟨step_sane s a t hs.1 ht, step_owned s a t hs.1 hs.2 hok ht⟩
  exact (reach_registered h).2.bounded howned.1 howned.2

/-- The listener of the event that did not happen outlives its call. -/
theorem Sane.leftover {s t : Obj c} (h : Sane s) (event : String) (args : List JsValue)
    (hok : ¬ Lone s (.emit event args)) (hs : step s (.emit event args) = some t) :
    ∃ l ∈ t.listeners, ¬ t.InFlight l.body.1 := by
  obtain ⟨hrun, rfl⟩ := step_emit hs
  simp only [Lone, not_forall] at hok
  obtain ⟨i, hi, hcomp, hlen⟩ := hok
  obtain ⟨o, ho, hother⟩ := i.1.other_once event hcomp hlen
  refine ⟨⟨o.event, (i, o.settle)⟩, ?_, ?_⟩
  · rw [Obj.emit_listeners]
    exact List.mem_filter.mpr ⟨h.owns i hi (by simp [hrun]) o ho, by simpa using hother⟩
  · exact fun hfly => ((h.emit_inFlight hrun event args i).mp hfly).1 hcomp

/-- After `k` completed calls of a method that waits for `o` or `other`, each
ended by `o`: nothing in flight, and `k` listeners. -/
structure Littered (m : Method c) (o : Once) (k : ℕ) (s : Obj c) : Prop where
  idle : s.running = none
  issued : s.issued m = k
  grounded : ∀ i, ¬ s.InFlight i
  left : ∀ l ∈ s.listeners, l.event ≠ o.event
  length : s.listeners.length = k

def round (m : Method c) (o : Once) (k : ℕ) : List (Action c) :=
  [.call m, .timer (m, k), .resume (m, k) (.accepted 0), .register, .emit o.event []]

theorem Littered.next {m : Method c} {o other : Once} {k : ℕ} {s : Obj c} (hs : Sane s)
    (h : Littered m o k s) (hm : m.guarded.onces = [o, other]) :
    ∃ t, run step always s (round m o k) = some t ∧ Littered m o (k+1) t := by
  have hopen : ¬ s.Locked m := by
    intro hl
    obtain ⟨n, hn⟩ := hs.locked m hl
    exact h.grounded _ hn
  have hne : other.event ≠ o.event := by
    have hdistinct := m.onces_distinct
    rw [hm] at hdistinct
    exact ((List.pairwise_cons.mp hdistinct).1 other (by simp)).symm
  obtain rfl : s.issued m = k := h.issued
  let listening := (s.entering m).register (m, s.issued m)
  have hcall := step_issue (m := m) h.idle
  have hwait := step_passing h.idle hopen
  have hresume := step_entering (m := m) h.idle
  have hregister : step (s.entering m) .register = some listening := rfl
  have hemit : step listening (.emit o.event []) = some (listening.emit o.event []) := rfl
  have hsane : Sane listening :=
    step_sane _ _ _ (step_sane _ _ _ (step_sane _ _ _ (step_sane _ _ _ hs hcall) hwait) hresume)
      hregister
  have hfly : ∀ j, listening.InFlight j → j = (m, s.issued m) := by
    intro j hj
    by_contra hother
    exact h.grounded j ((inFlight_congr (entering_other j hother)).mp hj)
  have hlisteners : listening.listeners = s.listeners ++
      [⟨o.event, ((m, s.issued m), o.settle)⟩, ⟨other.event, ((m, s.issued m), other.settle)⟩] := by
    simp [listening, Obj.entering, Obj.passing, Obj.register, Obj.inTurn, Obj.enter, Obj.lock,
      Obj.issue, Obj.setCall, hm]
  have hleft : (listening.emit o.event []).listeners =
      s.listeners ++ [⟨other.event, ((m, s.issued m), other.settle)⟩] := by
    rw [Obj.emit_listeners, hlisteners, List.filter_append]
    congr 1
    · exact List.filter_eq_self.mpr fun l hl => by simpa using h.left l hl
    · simp [hne]
  refine ⟨listening.emit o.event [], ?_, ?_, ?_, ?_, ?_, ?_⟩
  · simp [run, round, always, hcall, hwait, hresume, hregister, hemit]
  · rw [Obj.emit_running]
    rfl
  · rw [Obj.emit_issued]
    simp [listening, Obj.entering, Obj.passing, Obj.register, Obj.inTurn, Obj.enter, Obj.lock,
      Obj.issue, Obj.setCall]
  · intro j hj
    obtain ⟨hnot, hold⟩ := (hsane.emit_inFlight rfl o.event [] j).mp hj
    obtain rfl := hfly j hold
    exact hnot ⟨o, by simp [hm], rfl⟩
  · intro l hl
    rw [hleft] at hl
    rcases List.mem_append.mp hl with hold | hnew
    · exact h.left l hold
    · obtain rfl := List.mem_singleton.mp hnew
      exact hne
  · rw [hleft, List.length_append, h.length]
    rfl

theorem reach_littered (m : Method c) (o other : Once) (hm : m.guarded.onces = [o, other])
    (k : ℕ) : ∃ s, Reach step always (init c) s ∧ Littered m o k s := by
  induction k with
  | zero =>
    refine ⟨init c, Reach.refl _, rfl, rfl, ?_, ?_, rfl⟩
    · exact fun i hi => absurd hi.1 (Nat.lt_irrefl 0)
    · exact fun l hl => by cases hl
  | succ k ih =>
    obtain ⟨s, hreach, hs⟩ := ih
    obtain ⟨t, hrun, ht⟩ := hs.next (reach_sane hreach) hm
    exact ⟨t, hreach.trans (reach_of_run hrun), ht⟩

/-- The table is bounded in every run in which no completion of a method with
two completion events meets a call in flight; each such completion leaves a
listener of a settled call; and such leftovers grow with the completed calls. -/
theorem bounded_listeners (c : JsClass) :
    (∀ s : Obj c, Reach step Lone (init c) s → Bounded s) ∧
    (∀ (s t : Obj c) (a : Action c), Reach step always (init c) s → ¬ Lone s a →
      step s a = some t → ¬ Bounded t) ∧
    ∃ m : Method c, ∀ k, ∃ s, Reach step always (init c) s ∧ s.issued m = k ∧
      (∀ i, ¬ s.InFlight i) ∧ s.listeners.length = k := by
  refine ⟨fun s h => reach_bounded h, ?_, ?_⟩
  · intro s t a h hok hs hbounded
    cases a with
    | emit event args =>
      obtain ⟨l, hl, hnot⟩ := (reach_sane h).leftover event args hok hs
      exact hnot (hbounded.owned l hl)
    | _ => exact hok trivial
  · obtain ⟨m, o, other, hm⟩ : ∃ (m : Method c) (o other : Once), m.guarded.onces = [o, other] := by
      cases c
      · exact ⟨.join, _, _, rfl⟩
      · exact ⟨.login, _, _, rfl⟩
    refine ⟨m, fun k => ?_⟩
    obtain ⟨s, hreach, hs⟩ := reach_littered m o other hm k
    exact ⟨s, hreach, hs.issued, hs.grounded, hs.length⟩

def leaveRound : List (Action .AgoraRtmChannel) := round .leave ⟨"LeaveChannel", .resolve⟩ 0

def loginRound : List (Action .AgoraRtmSDK) := round .login ⟨"LoginSuccess", .resolve⟩ 0

theorem bounded_listeners_leave :
    Bounded (final step always (init .AgoraRtmChannel) leaveRound) ∧
    ¬ Bounded (final step always (init .AgoraRtmSDK) loginRound) := by
  have hleave : Reach step Lone (init .AgoraRtmChannel)
      (final step always (init .AgoraRtmChannel) leaveRound) := by
    refine Reach.tail (a := .emit "LeaveChannel" []) (Reach.tail (a := .register) (Reach.tail
      (a := .resume (.leave, 0) (.accepted 0)) (Reach.tail (a := .timer (.leave, 0)) (Reach.tail
      (a := .call .leave) (Reach.refl _) trivial rfl) trivial rfl) trivial rfl) trivial rfl) ?_ rfl
    rintro ⟨m, n⟩ - ⟨o, ho, he⟩
    cases m with
    | join => exact absurd (⟨o, ho, he⟩ : Method.join.Completes "LeaveChannel") (by decide)
    | leave => rfl
  have hlogin : ¬ Lone (final step always (init .AgoraRtmSDK) (loginRound.take 4))
      (.emit "LoginSuccess" []) := by
    intro h
    exact absurd (h (.login, 0) (by decide) (by decide)) (by decide)
  exact ⟨(bounded_listeners .AgoraRtmChannel).1 _ hleave,
    (bounded_listeners .AgoraRtmSDK).2.1 _ _ _ (reach_final rfl) hlogin rfl⟩

/-- One login that succeeds leaves its `LoginFailure` listener behind. -/
theorem login_listener_left :
    ¬ ∀ s : Obj .AgoraRtmSDK, Reach step always (init .AgoraRtmSDK) s → Bounded s := by
  intro h
  have hreach : Reach step always (init .AgoraRtmSDK)
      (final step always (init .AgoraRtmSDK) loginRound) := reach_final rfl
  have hflies := (h _ hreach).owned ⟨"LoginFailure", ((.login, 0), .reject)⟩ (by decide)
  revert hflies
  decide

end AgoraRtm.Adapter
