import AgoraRtm.NativeSystem

/-!
# Sequential use

A client that issues each `login` or `join` only after the last one has settled
sees the calls and the answers in step. Between two answers the method is in one
of four stages; the listeners that earlier calls left behind belong to settled
promises and run only where the key is to be unlocked anyway.
-/

set_option autoImplicit false

namespace AgoraRtm.NativeSystem
open Runs Adapter NativeEvents

variable {c : JsClass}

/-- The method of a class that ends in a success event or a failure event. -/
def opener : (c : JsClass) → Method c
  | .AgoraRtmChannel => .join
  | .AgoraRtmSDK => .login

def Answer.promise : Answer → Promise
  | .success => .fulfilled
  | .failure errorCode => .rejected (.code (some (.scalar (napi_create_int32_ errorCode))))

/-- The runs of a client that awaits each promise, over a native side that
accepts each call, and raises no completion event of its own. -/
def Sequential (m : Method c) (S : System c) : Action c → Prop
  | .js (.call m') => m' = m → ∀ n < S.obj.issued m, (S.obj.calls (m, n)).promise ≠ .pending
  | .js (.resume i r) => i.1 = m → accepts r = true
  | .notify n => ¬ m.Completes n.1
  | _ => True

instance (m : Method c) (S : System c) : (a : Action c) → Decidable (Sequential m S a)
  | .js (.call m') => inferInstanceAs
    (Decidable (m' = m → ∀ n < S.obj.issued m, (S.obj.calls (m, n)).promise ≠ .pending))
  | .js (.resume i r) => inferInstanceAs (Decidable (i.1 = m → accepts r = true))
  | .notify n => inferInstanceAs (Decidable (¬ m.Completes n.1))
  | .js (.timer _) | .js .register | .js (.emit _ _) | .answer _ _ | .deliver =>
    inferInstanceAs (Decidable True)

def due (S : System c) (m : Method c) : List Notice := S.posted.filter fun n => m.Completes n.1

/-- What a once-listener makes of a completion is what the native side said. -/
def Reports (m : Method c) : Prop :=
  ∀ a n, completion m a = some n →
    ∃ o ∈ m.guarded.onces, o.event = n.1 ∧ o.settle.outcome n.2 = a.promise

theorem opener_reports (c : JsClass) : Reports (opener c) := by
  intro a n hn
  cases c <;> cases a <;> obtain rfl := Option.some.inj hn
  · exact ⟨⟨"JoinSuccess", .resolve⟩, by decide, rfl, rfl⟩
  · exact ⟨⟨"JoinFailure", .reject⟩, by decide, rfl, rfl⟩
  · exact ⟨⟨"LoginSuccess", .resolve⟩, by decide, rfl, rfl⟩
  · exact ⟨⟨"LoginFailure", .reject⟩, by decide, rfl, rfl⟩

structure SystemAside (m : Method c) (S T : System c) : Prop where
  obj : Aside m S.obj T.obj
  outstanding : T.outstanding m = S.outstanding m
  answers : T.answers m = S.answers m
  due : due T m = due S m

def Concerns (S : System c) (m : Method c) : Action c → Prop
  | .js b => Touches m b
  | .answer m' _ => m' = m
  | .notify n => m.Completes n.1
  | .deliver => ∃ n ∈ S.posted.head?, m.Completes n.1

theorem aside_refl (m : Method c) (s : Obj c) : Aside m s s := ⟨rfl, fun _ => rfl, rfl⟩

theorem step_systemAside {S T : System c} {a : Action c} (h : Sane S.obj) (m : Method c)
    (ha : ¬ Concerns S m a) (hs : step S a = some T) : SystemAside m S T := by
  rcases step_cases hs with ⟨b, t, rfl, -, ht, rfl⟩ | ⟨m', ans, n, rfl, -, hn, rfl⟩ |
    ⟨n, rfl, rfl⟩ | ⟨n, rest, rfl, hposted, hrun, rfl⟩
  · refine ⟨h.step_aside m ha ht, ?_, rfl, rfl⟩
    cases b with
    | resume i r =>
      have hne : m ≠ i.1 := fun he => ha he.symm
      simp only [launched]
      split <;> simp [hne]
    | _ => rfl
  · have hne : m ≠ m' := fun he => ha he.symm
    have hnot : ¬ m.Completes n.1 := by
      rintro ⟨o, ho, he⟩
      obtain ⟨o', ho', he'⟩ := completion_completes m' ans n hn
      exact hne (Method.onces_disjoint m m' o ho o' ho' (he.trans he'.symm))
    exact ⟨aside_refl m S.obj, by simp [answered, hne], by simp [answered, hne],
      by simp [due, answered, hnot]⟩
  · have hnot : ¬ m.Completes n.1 := ha
    exact ⟨aside_refl m S.obj, rfl, rfl, by simp [due, hnot]⟩
  · have hnot : ¬ m.Completes n.1 := fun hc => ha ⟨n, by simp [hposted], hc⟩
    have haside := h.emit_aside n.1 n.2 m hnot
    exact ⟨⟨by rw [Obj.emit_issued], haside.1, haside.2⟩, rfl, rfl, by simp [due, hposted, hnot]⟩

/-- The first calls have invoked the native method once and settled as their
answers say. -/
def Earlier (S : System c) (m : Method c) (k : ℕ) : Prop :=
  ∀ n < k, (S.obj.calls (m, n)).invoked = 1 ∧
    ∃ a, (S.answers m)[n]? = some a ∧ (S.obj.calls (m, n)).promise = a.promise

structure Calm (S : System c) (m : Method c) (k : ℕ) : Prop where
  earlier : Earlier S m k
  answers : (S.answers m).length = k
  outstanding : S.outstanding m = 0
  due : due S m = []
  unlocked : ¬ S.obj.Locked m

inductive Stage (S : System c) (m : Method c) : Prop where
  | resting (k : ℕ) (hissued : S.obj.issued m = k) (hcalm : Calm S m k)
  | arriving (k : ℕ) (hissued : S.obj.issued m = k+1) (hcalm : Calm S m k)
      (hphase : (S.obj.calls (m, k)).phase = .waiting ∨ (S.obj.calls (m, k)).phase = .passed)
  | flying (k : ℕ) (hissued : S.obj.issued m = k+1) (hearlier : Earlier S m k)
      (hanswers : (S.answers m).length = k) (hout : S.outstanding m = 1) (hdue : due S m = [])
      (hfly : S.obj.InFlight (m, k))
  | answered (k : ℕ) (a : Answer) (n : Notice) (hissued : S.obj.issued m = k+1)
      (hearlier : Earlier S m k) (hlength : (S.answers m).length = k+1)
      (hanswer : (S.answers m)[k]? = some a) (hout : S.outstanding m = 0)
      (hn : completion m a = some n) (hdue : due S m = [n]) (hfly : S.obj.InFlight (m, k))

section Stages

variable {S T : System c} {m : Method c}

theorem SystemAside.earlier (h : SystemAside m S T) {k : ℕ} (he : Earlier S m k) :
    Earlier T m k := by
  intro n hn
  rw [h.obj.calls, h.answers]
  exact he n hn

theorem SystemAside.calm (h : SystemAside m S T) {k : ℕ} (hc : Calm S m k) : Calm T m k where
  earlier := h.earlier hc.earlier
  answers := by rw [h.answers, hc.answers]
  outstanding := by rw [h.outstanding, hc.outstanding]
  due := by rw [h.due, hc.due]
  unlocked := by
    rw [locked_congr h.obj.lockers]
    exact hc.unlocked

theorem SystemAside.stage (h : SystemAside m S T) (hs : Stage S m) : Stage T m := by
  cases hs with
  | resting k hissued hcalm => exact .resting k (by rw [h.obj.issued, hissued]) (h.calm hcalm)
  | arriving k hissued hcalm hphase =>
    exact .arriving k (by rw [h.obj.issued, hissued]) (h.calm hcalm) (by rwa [h.obj.calls])
  | flying k hissued hearlier hanswers hout hdue hfly =>
    exact .flying k (by rw [h.obj.issued, hissued]) (h.earlier hearlier) (by rwa [h.answers])
      (by rwa [h.outstanding]) (by rwa [h.due]) ((inFlight_congr (h.obj.calls k)).mpr hfly)
  | answered k a n hissued hearlier hlength hanswer hout hn hdue hfly =>
    exact .answered k a n (by rw [h.obj.issued, hissued]) (h.earlier hearlier) (by rwa [h.answers])
      (by rwa [h.answers]) (by rwa [h.outstanding]) hn (by rwa [h.due])
      ((inFlight_congr (h.obj.calls k)).mpr hfly)

theorem Stage.arriving_of_phase (hsane : Sane S.obj) (h : Stage S m) (n : ℕ)
    (hp : (S.obj.calls (m, n)).phase ≠ .done) (hn : n < S.obj.issued m) :
    S.obj.issued m = n+1 ∧ Calm S m n ∧
      ((S.obj.calls (m, n)).phase = .waiting ∨ (S.obj.calls (m, n)).phase = .passed) := by
  have hlate : ∀ k, Earlier S m k → k ≤ n := by
    intro k hk
    by_contra hlt
    have hone := (hk n (by omega)).1
    have hzero := (hsane.before _ hp).2
    omega
  have hnot : ¬ S.obj.InFlight (m, n) := fun hf => hp (hsane.inFlight_done _ hf)
  cases h with
  | resting k hissued hcalm =>
    have hle := hlate k hcalm.earlier
    omega
  | arriving k hissued hcalm hphase =>
    have hle := hlate k hcalm.earlier
    obtain rfl : k = n := by omega
    exact ⟨hissued, hcalm, hphase⟩
  | flying k hissued hearlier hanswers hout hdue hfly =>
    have hle := hlate k hearlier
    obtain rfl : k = n := by omega
    exact absurd hfly hnot
  | answered k a e hissued hearlier hlength hanswer hout he hdue hfly =>
    have hle := hlate k hearlier
    obtain rfl : k = n := by omega
    exact absurd hfly hnot

theorem answer_ne_pending (a : Answer) : a.promise ≠ .pending := by
  cases a <;> simp [Answer.promise]

theorem Earlier.congr {k : ℕ} (h : Earlier S m k)
    (hcalls : ∀ n < k, T.obj.calls (m, n) = S.obj.calls (m, n))
    (hanswers : ∀ n < k, (T.answers m)[n]? = (S.answers m)[n]?) : Earlier T m k := by
  intro n hn
  rw [hcalls n hn, hanswers n hn]
  exact h n hn

theorem stage_call (hsane : Sane S.obj) (h : Stage S m)
    (hok : ∀ n < S.obj.issued m, (S.obj.calls (m, n)).promise ≠ .pending) :
    Stage { S with obj := S.obj.issue m } m := by
  cases h with
  | resting k hissued hcalm =>
    have hother : ∀ n < k, (S.obj.issue m).calls (m, n) = S.obj.calls (m, n) := by
      intro n hn
      apply Obj.setCall_other
      have hne : n ≠ S.obj.issued m := by omega
      simpa using hne
    refine .arriving k (by simp [Obj.issue, hissued]) ?_ ?_
    · exact ⟨hcalm.earlier.congr hother fun _ _ => rfl, hcalm.answers, hcalm.outstanding, hcalm.due,
        hcalm.unlocked⟩
    · left
      simp [Obj.issue, hissued]
  | arriving k hissued hcalm hphase =>
    have hne : (S.obj.calls (m, k)).phase ≠ .done := by
      rcases hphase with hp | hp <;> simp [hp]
    exact absurd (hsane.before _ hne).1 (hok k (by omega))
  | flying k hissued hearlier hanswers hout hdue hfly =>
    exact absurd hfly.2 (hok k (by omega))
  | answered k a n hissued hearlier hlength hanswer hout hn hdue hfly =>
    exact absurd hfly.2 (hok k (by omega))

theorem stage_timer (hsane : Sane S.obj) (h : Stage S m) (n : ℕ)
    (hw : (S.obj.calls (m, n)).phase = .waiting) :
    Stage { S with
      obj := S.obj.setCall (m, n) { S.obj.calls (m, n) with phase := S.obj.waited (m, n) } } m := by
  have hne : (S.obj.calls (m, n)).phase ≠ .done := by simp [hw]
  have hlt := hsane.issued_of_phase (m, n) (by simp [hw])
  obtain ⟨hissued, hcalm, -⟩ := h.arriving_of_phase hsane n hne hlt
  have hopen : S.obj.mutex.locked m.key = false := by simpa [Obj.Locked] using hcalm.unlocked
  refine .arriving n hissued ?_ ?_
  · refine ⟨hcalm.earlier.congr ?_ fun _ _ => rfl, hcalm.answers, hcalm.outstanding, hcalm.due,
      hcalm.unlocked⟩
    intro k hk
    apply Obj.setCall_other
    simp [Nat.ne_of_lt hk]
  · right
    simp [Obj.waited, Mutex.wait, hopen]

theorem stage_resume (hsane : Sane S.obj) (h : Stage S m) (n : ℕ) (r : Native) (t : Obj c)
    (hr : accepts r = true) (hs : S.obj.resume (m, n) r = some t) :
    Stage { S with obj := t, outstanding := launched S (.resume (m, n) r) } m := by
  have hne := resume_not_done hs
  have hissue : (S.obj.calls (m, n)).phase ≠ .unissued := by
    intro hu
    simp [Obj.resume, hu] at hs
  obtain ⟨hissued, hcalm, hphase⟩ :=
    h.arriving_of_phase hsane n hne (hsane.issued_of_phase (m, n) hissue)
  rcases hsane.resume_cases (m, n) r hs with ⟨err, -, rfl, -⟩ | ⟨hp, -, rfl⟩ | ⟨message, hp, -⟩
  · cases hr
  · refine .flying n hissued ?_ hcalm.answers ?_ hcalm.due ?_
    · refine hcalm.earlier.congr ?_ fun _ _ => rfl
      intro k hk
      apply Obj.setCall_other
      simp [Nat.ne_of_lt hk]
    · simp [launched, hp, hr, hcalm.outstanding]
    · simp [Obj.InFlight, Obj.inTurn]
  · rcases hphase with hp' | hp' <;> simp [hp] at hp'

theorem stage_answer (h : Stage S m) (a : Answer) (n : Notice) (hpos : 0 < S.outstanding m)
    (hn : completion m a = some n) : Stage (answered S m a n) m := by
  have hcomp := completion_completes m a n hn
  cases h with
  | resting k hissued hcalm =>
    have hzero := hcalm.outstanding
    omega
  | arriving k hissued hcalm hphase =>
    have hzero := hcalm.outstanding
    omega
  | flying k hissued hearlier hanswers hout hdue hfly =>
    refine .answered k a n hissued ?_ ?_ ?_ ?_ hn ?_ hfly
    · refine hearlier.congr (fun _ _ => rfl) ?_
      intro j hj
      simp [answered, List.getElem?_append_left (by omega : j < (S.answers m).length)]
    · simp [answered, hanswers]
    · simp [answered, ← hanswers]
    · simp [answered, hout]
    · have hdue' : S.posted.filter (fun n => m.Completes n.1) = [] := hdue
      simp [due, answered, hdue', hcomp]
  | answered k a' e hissued hearlier hlength hanswer hout he hdue hfly => omega

theorem stage_deliver (hsane : Sane S.obj) (hreports : Reports m) (h : Stage S m) (n : Notice)
    (rest : List Notice) (hposted : S.posted = n :: rest) (hcomp : m.Completes n.1)
    (hrun : S.obj.running = none) :
    Stage { S with obj := S.obj.emit n.1 n.2, posted := rest } m := by
  have hcons : due S m = n :: rest.filter fun n => m.Completes n.1 := by
    simp [due, hposted, hcomp]
  cases h with
  | resting k hissued hcalm =>
    have hdue := hcalm.due
    rw [hcons] at hdue
    cases hdue
  | arriving k hissued hcalm hphase =>
    have hdue := hcalm.due
    rw [hcons] at hdue
    cases hdue
  | flying k hissued hearlier hanswers hout hdue hfly =>
    rw [hcons] at hdue
    cases hdue
  | answered k a e hissued hearlier hlength hanswer hout he hdue hfly =>
    rw [hcons] at hdue
    obtain ⟨rfl, hrest⟩ := List.cons.inj hdue
    obtain ⟨o, ho, hevent, houtcome⟩ := hreports a n he
    obtain ⟨hset, hopen⟩ := hsane.emit_completes hrun n.1 n.2 (m, k) o ho hevent hfly
    -- what the earlier calls left behind settles nothing
    have hold : ∀ j < k, (S.obj.emit n.1 n.2).calls (m, j) = S.obj.calls (m, j) := by
      intro j hj
      obtain ⟨-, b, -, hb⟩ := hearlier j hj
      apply Obj.emit_settled
      rw [hb]
      exact answer_ne_pending b
    refine .resting (k+1) (by rw [← hissued, Obj.emit_issued]) ?_
    refine ⟨?_, hlength, hout, hrest, ?_⟩
    · intro j hj
      by_cases hjk : j = k
      · subst hjk
        have hcall := Obj.emit_call S.obj n.1 n.2 (m, j)
        have hle := hsane.once (m, j)
        have hpos := hfly.1
        refine ⟨?_, a, hanswer, by rw [hset, houtcome]⟩
        rw [hcall]
        show (S.obj.calls (m, j)).invoked = 1
        omega
      · rw [hold j (by omega)]
        exact hearlier j (by omega)
    · simp [Obj.Locked, Mutex.locked, hopen]

end Stages

theorem init_stage (m : Method c) : Stage (init c) m := by
  refine .resting 0 rfl ⟨?_, rfl, rfl, rfl, ?_⟩
  · intro n hn
    omega
  · intro hl
    cases hl

theorem step_stage (m : Method c) (hreports : Reports m) (S : System c) (a : Action c)
    (T : System c) (h : Sane S.obj ∧ Stage S m) (hok : Sequential m S a) (hs : step S a = some T) :
    Sane T.obj ∧ Stage T m := by
  obtain ⟨hsane, hstage⟩ := h
  refine ⟨step_obj_sane S a T hsane hs, ?_⟩
  by_cases hconcerns : Concerns S m a
  · rcases step_cases hs with ⟨b, t, rfl, hne, ht, rfl⟩ | ⟨m', ans, n, rfl, hpos, hn, rfl⟩ |
      ⟨n, rfl, rfl⟩ | ⟨n, rest, rfl, hposted, hrun, rfl⟩
    · cases b with
      | call m' =>
        obtain rfl : m' = m := hconcerns
        obtain ⟨-, rfl⟩ := step_call ht
        exact stage_call hsane hstage (hok rfl)
      | timer i =>
        obtain ⟨m', n⟩ := i
        obtain rfl : m' = m := hconcerns
        obtain ⟨-, hw, rfl⟩ := step_timer ht
        exact stage_timer hsane hstage n hw
      | resume i r =>
        obtain ⟨m', n⟩ := i
        obtain rfl : m' = m := hconcerns
        exact stage_resume hsane hstage n r t (hok rfl) (step_resume ht).2
      | register => exact hconcerns.elim
      | emit event args => exact absurd rfl (hne event args)
    · obtain rfl : m' = m := hconcerns
      exact stage_answer hstage ans n hpos hn
    · exact absurd hconcerns hok
    · obtain ⟨e, he, hcomp⟩ := hconcerns
      obtain rfl : n = e := by simpa [hposted] using he
      exact stage_deliver hsane hreports hstage n rest hposted hcomp hrun
  · exact (step_systemAside hsane m hconcerns hs).stage hstage

theorem reach_stage {S : System c} (m : Method c) (hreports : Reports m)
    (h : Reach step (Sequential m) (init c) S) : Sane S.obj ∧ Stage S m :=
  h.invariant ⟨init_sane, init_stage m⟩ (step_stage m hreports)

structure ExactUse (S : System c) (m : Method c) : Prop where
  /-- A call waits, or is about to enter, or has invoked the method once. -/
  reached : ∀ n < S.obj.issued m, (S.obj.calls (m, n)).phase = .waiting ∨
    (S.obj.calls (m, n)).phase = .passed ∨
    ((S.obj.calls (m, n)).phase = .done ∧ (S.obj.calls (m, n)).invoked = 1)
  unrefused : ∀ n message, (S.obj.calls (m, n)).promise ≠ .rejected (.error message)
  /-- The promises that have settled are the first, one for each answer whose
  event has been emitted. -/
  inStep : ∀ n, (S.obj.calls (m, n)).promise ≠ .pending ↔
    n+(due S m).length < (S.answers m).length
  settled : ∀ n, (S.obj.calls (m, n)).promise ≠ .pending →
    ∃ a, (S.answers m)[n]? = some a ∧ (S.obj.calls (m, n)).promise = a.promise
  unlocked : (∀ n < S.obj.issued m, (S.obj.calls (m, n)).promise ≠ .pending) → ¬ S.obj.Locked m
  /-- At rest nothing is missed. -/
  rest : (∀ n < S.obj.issued m, (S.obj.calls (m, n)).phase = .done) → S.outstanding m = 0 →
    due S m = [] → ∀ n < S.obj.issued m, (S.obj.calls (m, n)).promise ≠ .pending

section Exactness

variable {S : System c} {m : Method c}

theorem Stage.frontier (hsane : Sane S.obj) (h : Stage S m) :
    ∃ k, Earlier S m k ∧ (S.answers m).length = k+(due S m).length ∧
      ∀ n, k ≤ n → (S.obj.calls (m, n)).promise = .pending := by
  have hlater : ∀ k, S.obj.issued m = k+1 → (S.obj.calls (m, k)).promise = .pending →
      ∀ n, k ≤ n → (S.obj.calls (m, n)).promise = .pending := by
    intro k hissued hk n hn
    by_cases hnk : n = k
    · rw [hnk, hk]
    · exact hsane.unissued_pending m n (by omega)
  cases h with
  | resting k hissued hcalm =>
    exact ⟨k, hcalm.earlier, by simp [hcalm.answers, hcalm.due],
      fun n hn => hsane.unissued_pending m n (by omega)⟩
  | arriving k hissued hcalm hphase =>
    have hne : (S.obj.calls (m, k)).phase ≠ .done := by
      rcases hphase with hp | hp <;> simp [hp]
    exact ⟨k, hcalm.earlier, by simp [hcalm.answers, hcalm.due],
      hlater k hissued (hsane.before _ hne).1⟩
  | flying k hissued hearlier hanswers hout hdue hfly =>
    exact ⟨k, hearlier, by simp [hanswers, hdue], hlater k hissued hfly.2⟩
  | answered k a n hissued hearlier hlength hanswer hout hn hdue hfly =>
    exact ⟨k, hearlier, by simp [hlength, hdue], hlater k hissued hfly.2⟩

theorem Stage.reached (hsane : Sane S.obj) (h : Stage S m) (n : ℕ) (hn : n < S.obj.issued m) :
    (S.obj.calls (m, n)).phase = .waiting ∨ (S.obj.calls (m, n)).phase = .passed ∨
    ((S.obj.calls (m, n)).phase = .done ∧ (S.obj.calls (m, n)).invoked = 1) := by
  by_cases hp : (S.obj.calls (m, n)).phase = .done
  · right; right
    refine ⟨hp, ?_⟩
    have hlast : ∀ k, S.obj.InFlight (m, k) → (S.obj.calls (m, k)).invoked = 1 := by
      intro k hfly
      have hle := hsane.once (m, k)
      have hpos := hfly.1
      omega
    have hcase : ∀ k, S.obj.issued m = k+1 → Earlier S m k → S.obj.InFlight (m, k) →
        (S.obj.calls (m, n)).invoked = 1 := by
      intro k hissued hearlier hfly
      by_cases hnk : n = k
      · rw [hnk]
        exact hlast k hfly
      · exact (hearlier n (by omega)).1
    cases h with
    | resting k hissued hcalm => exact (hcalm.earlier n (by omega)).1
    | arriving k hissued hcalm hphase =>
      have hnk : n ≠ k := by
        rintro rfl
        simp [hp] at hphase
      exact (hcalm.earlier n (by omega)).1
    | flying k hissued hearlier hanswers hout hdue hfly => exact hcase k hissued hearlier hfly
    | answered k a e hissued hearlier hlength hanswer hout he hdue hfly =>
      exact hcase k hissued hearlier hfly
  · obtain ⟨-, -, hphase⟩ := h.arriving_of_phase hsane n hp hn
    rcases hphase with hw | hw
    · exact Or.inl hw
    · exact Or.inr (Or.inl hw)

theorem Stage.exactUse (hsane : Sane S.obj) (h : Stage S m) : ExactUse S m := by
  obtain ⟨k, hearlier, hlength, hlater⟩ := h.frontier hsane
  have hsettled : ∀ n, (S.obj.calls (m, n)).promise ≠ .pending → n < k := by
    intro n hp
    by_contra hge
    exact hp (hlater n (by omega))
  have hanswered : ∀ n, (S.obj.calls (m, n)).promise ≠ .pending →
      ∃ a, (S.answers m)[n]? = some a ∧ (S.obj.calls (m, n)).promise = a.promise :=
    fun n hp => (hearlier n (hsettled n hp)).2
  refine ⟨h.reached hsane, ?_, ?_, hanswered, ?_, ?_⟩
  · intro n message he
    obtain ⟨a, -, ha⟩ := hanswered n (by simp [he])
    rw [he] at ha
    cases a <;> simp [Answer.promise] at ha
  · intro n
    constructor
    · intro hp
      have hlt := hsettled n hp
      omega
    · intro hlt
      obtain ⟨-, a, -, ha⟩ := hearlier n (by omega)
      rw [ha]
      exact answer_ne_pending a
  · intro hall hlocked
    obtain ⟨n, hfly⟩ := hsane.locked m hlocked
    have hissued := hsane.issued_of_phase (m, n) (by simp [hsane.inFlight_done _ hfly])
    exact hall n hissued hfly.2
  · intro hdone hout hdue n hn
    cases h with
    | resting j hissued hcalm =>
      obtain ⟨-, a, -, ha⟩ := hcalm.earlier n (by omega)
      rw [ha]
      exact answer_ne_pending a
    | arriving j hissued hcalm hphase =>
      have hj := hdone j (by omega)
      simp [hj] at hphase
    | flying j hissued hearlier' hanswers hout' hdue' hfly => omega
    | answered j a e hissued hearlier' hlength' hanswer hout' he hdue' hfly =>
      rw [hdue] at hdue'
      cases hdue'

end Exactness

/-- Sequential use is exact: for `join` on a channel and `login` on the SDK, in
every run of a client that awaits each promise over a native side that answers
each call once. -/
theorem sequential_use_exact (c : JsClass) (S : System c)
    (h : Reach step (Sequential (opener c)) (init c) S) : ExactUse S (opener c) := by
  obtain ⟨hsane, hstage⟩ := reach_stage (opener c) (opener_reports c) h
  exact hstage.exactUse hsane

-- A success, then a failure which the first call's leftover listener hears
-- too. The second answer is posted before the listeners are registered.
def twoLogins : List (Action .AgoraRtmSDK) :=
  [.js (.call .login), .js (.timer (.login, 0)), .js (.resume (.login, 0) (.accepted 0)),
    .js .register, .answer .login .success, .deliver, .js (.call .login),
    .js (.timer (.login, 1)), .js (.resume (.login, 1) (.accepted 0)),
    .answer .login (.failure 3), .js .register, .deliver]

theorem sequential_use_exact_logins :
    ((final step (Sequential .login) (init .AgoraRtmSDK) twoLogins).obj.calls (.login, 1)).promise =
      .rejected (.code (some (.scalar (.number 3)))) ∧
    ¬ (final step (Sequential .login) (init .AgoraRtmSDK) twoLogins).obj.Locked .login ∧
    ExactUse (final step (Sequential .login) (init .AgoraRtmSDK) twoLogins) .login :=
  ⟨rfl, by decide, sequential_use_exact .AgoraRtmSDK _ (reach_final rfl)⟩

end AgoraRtm.NativeSystem
