import AgoraRtm.AdapterInvariant
import AgoraRtm.Reception

/-!
# What settles a promise

An adapter object with the native callbacks that reach it: each posts a task,
the tasks run in order, and the event of a task is emitted on the object. For
each call is noted the callback whose event has settled its promise. `login` and
`join` fail by an event of their own, `logout` and `leave` by the error code of
their only event.
-/

set_option autoImplicit false

namespace AgoraRtm.Settlement
open Runs OnceTable Adapter NativeEvents Delivery NativeSystem Reception

variable {c : JsClass}

def kindOfClass : JsClass → Kind
  | .AgoraRtmChannel => .channel
  | .AgoraRtmSDK => .controller

def succeeded : Callback → Bool
  | .controller .onLoginSuccess => true
  | .controller (.onLogout errorCode) => errorCode = 0
  | .channel .onJoinSuccess => true
  | .channel (.onLeave errorCode) => errorCode = 0
  | _ => false

def errorCode : Callback → Option (BitVec 32)
  | .controller (.onLoginFailure errorCode) => some errorCode
  | .controller (.onLogout errorCode) => some errorCode
  | .channel (.onJoinFailure errorCode) => some errorCode
  | .channel (.onLeave errorCode) => some errorCode
  | _ => none

/-- The object, the tasks posted for it, and the callback that has settled each
call. -/
structure Ledger (c : JsClass) where
  obj : Obj c
  posted : List (Callback × Task)
  settledBy : Id c → Option Callback

def init (c : JsClass) : Ledger c := ⟨Adapter.init c, [], fun _ => none⟩

inductive Action (c : JsClass) where
  | js (a : Adapter.Action c)
  | native (m : Memory) (cb : Callback)
  | emit (later : Memory)

def noted (S : Ledger c) (cb : Callback) (t : Obj c) : Id c → Option Callback := fun i =>
  if (S.obj.calls i).promise = .pending ∧ (t.calls i).promise ≠ .pending then some cb
  else S.settledBy i

def step (S : Ledger c) : Action c → Option (Ledger c)
  | .js (.emit _ _) => none
  | .js a => (Adapter.step S.obj a).map fun t => { S with obj := t }
  | .native m cb =>
    if kindOf cb = kindOfClass c then
      (cb.post m).map fun task => { S with posted := S.posted ++ [(cb, task)] }
    else none
  | .emit later =>
    match S.posted with
    | [] => none
    | (cb, task) :: rest => do
      let n ← received (kindOfClass c) later task
      let t ← Adapter.step S.obj (.emit n.1 n.2)
      return ⟨t, rest, noted S cb t⟩

/-- A fulfilled promise means success, and a non-zero error code rejects. -/
structure Honest (S : Ledger c) : Prop where
  success : ∀ i, (S.obj.calls i).promise = .fulfilled →
    ∃ cb, S.settledBy i = some cb ∧ succeeded cb = true
  failure : ∀ i cb code, S.settledBy i = some cb → errorCode cb = some code → code ≠ 0 →
    (S.obj.calls i).promise = .rejected (.code (some (.scalar (.number code.toInt))))

def reportsFailure : Callback → Bool
  | .controller (.onLogout errorCode) => errorCode ≠ 0
  | .channel (.onLeave errorCode) => errorCode ≠ 0
  | _ => false

/-- No such event is emitted while a call of the method is in flight. -/
def Unfailing (S : Ledger c) : Action c → Prop
  | .emit _ => ∀ p ∈ S.posted.head?, reportsFailure p.1 = true →
    ∀ i, i.1.Completes p.2.event → ¬ S.obj.InFlight i
  | _ => True

theorem step_cases {S T : Ledger c} {a : Action c} (hs : step S a = some T) :
    (∃ b t, a = .js b ∧ (∀ event args, b ≠ .emit event args) ∧ Adapter.step S.obj b = some t ∧
      T = { S with obj := t }) ∨
    (∃ m cb task, a = .native m cb ∧ kindOf cb = kindOfClass c ∧ cb.post m = some task ∧
      T = { S with posted := S.posted ++ [(cb, task)] }) ∨
    (∃ later cb task rest n, a = .emit later ∧ S.posted = (cb, task) :: rest ∧
      received (kindOfClass c) later task = some n ∧ S.obj.running = none ∧
      Adapter.step S.obj (.emit n.1 n.2) = some (S.obj.emit n.1 n.2) ∧
      T = ⟨S.obj.emit n.1 n.2, rest, noted S cb (S.obj.emit n.1 n.2)⟩) := by
  cases a with
  | js b =>
    left
    by_cases hb : ∃ event args, b = .emit event args
    · obtain ⟨event, args, rfl⟩ := hb
      cases hs
    · have hne : ∀ event args, b ≠ .emit event args := fun event args he => hb ⟨event, args, he⟩
      have hmap : (Adapter.step S.obj b).map (fun t => { S with obj := t }) = some T := by
        cases b <;> first | exact hs | exact absurd rfl (hne _ _)
      obtain ⟨t, ht, rfl⟩ := Option.map_eq_some_iff.mp hmap
      exact ⟨b, t, rfl, hne, ht, rfl⟩
  | native m cb =>
    right; left
    simp only [step] at hs
    split at hs
    · rename_i hk
      obtain ⟨task, hp, rfl⟩ := Option.map_eq_some_iff.mp hs
      exact ⟨m, cb, task, rfl, hk, hp, rfl⟩
    · cases hs
  | emit later =>
    right; right
    simp only [step] at hs
    split at hs
    · cases hs
    · rename_i cb task rest hposted
      obtain ⟨n, hn, hs⟩ := Option.bind_eq_some_iff.mp hs
      obtain ⟨t, ht, hs⟩ := Option.bind_eq_some_iff.mp hs
      obtain rfl := Option.some.inj hs
      obtain ⟨hrun, rfl⟩ := step_emit ht
      exact ⟨later, cb, task, rest, n, rfl, hposted, hn, hrun, ht, rfl⟩

section Promises

variable {s t : Obj c}

theorem step_promise (h : Sane s) {a : Adapter.Action c} (hs : Adapter.step s a = some t)
    (ha : ∀ event args, a ≠ .emit event args) (i : Id c) :
    (t.calls i).promise = (s.calls i).promise ∨
    ((s.calls i).promise = .pending ∧ ∃ reason, (t.calls i).promise = .rejected reason) := by
  cases a with
  | call m =>
    obtain ⟨-, rfl⟩ := step_call hs
    left
    by_cases hij : i = (m, s.issued m)
    · subst hij
      rw [h.unissued_pending m _ (Nat.le_refl _)]
      simp [Obj.issue]
    · exact congrArg Call.promise (Obj.setCall_other _ _ _ _ hij)
  | timer j =>
    obtain ⟨-, -, rfl⟩ := step_timer hs
    left
    by_cases hij : i = j
    · simp [hij]
    · exact congrArg Call.promise (Obj.setCall_other _ _ _ _ hij)
  | resume j r =>
    obtain ⟨-, hres⟩ := step_resume hs
    by_cases hij : i = j
    · subst hij
      have hp := (h.before i (resume_not_done hres)).1
      rcases h.resume_cases i r hres with ⟨err, -, -, rfl⟩ | ⟨-, -, rfl⟩ | ⟨message, -, rfl⟩
      · exact Or.inr ⟨hp, .thrown err, by simp⟩
      · exact Or.inl (by simp [Obj.inTurn, hp])
      · exact Or.inr ⟨hp, .error message, by simp⟩
    · left
      rcases h.resume_cases j r hres with ⟨err, -, -, rfl⟩ | ⟨-, -, rfl⟩ | ⟨message, -, rfl⟩
      · exact congrArg Call.promise (Obj.setCall_other _ _ _ _ hij)
      · exact congrArg Call.promise (Obj.setCall_other _ _ _ _ hij)
      · exact congrArg Call.promise (Obj.setCall_other _ _ _ _ hij)
  | register =>
    obtain ⟨j, -, rfl⟩ := step_register hs
    exact Or.inl rfl
  | emit event args => exact absurd rfl (ha event args)

theorem emit_settlement (h : Sane s) (event : String) (args : List JsValue) (i : Id c)
    (hp : (s.calls i).promise = .pending)
    (hq : ((s.emit event args).calls i).promise ≠ .pending) :
    ∃ x, ⟨event, (i, x)⟩ ∈ s.listeners ∧
      ((s.emit event args).calls i).promise = x.outcome args := by
  by_cases hl : ∃ l ∈ s.listeners, l.event = event ∧ l.body.1 = i
  · obtain ⟨⟨event', i', x⟩, hmem, rfl, rfl⟩ := hl
    have hown := (h.listener _ hmem).2
    refine ⟨x, hmem, ?_⟩
    have hall : ∀ l ∈ s.listeners, l.event = event' → l.body.1 = i' → l.body.2 = x := by
      intro l hl he hi
      have hother := (h.listener l hl).2
      rw [hi] at hother
      exact congrArg Once.settle (Method.onces_unique _ _ hother _ hown he)
    have hset := Obj.emit_settles s event' args i' x hmem hall
    rw [hp] at hset
    exact hset
  · have hsame := Obj.emit_untouched s event args i fun l hmem he hi => hl ⟨l, hmem, he, hi⟩
    exact absurd (by rw [hsame, hp]) hq

def Heard (s : Obj c) : Prop := ∀ l ∈ s.listeners, 0 < (s.calls l.body.1).invoked

theorem step_heard (h : Sane s) (hh : Heard s) {a : Adapter.Action c}
    (hs : Adapter.step s a = some t) : Heard t := by
  cases a with
  | call m =>
    obtain ⟨-, rfl⟩ := step_call hs
    intro l hl
    have hdone := (h.listener l hl).1
    have hne : l.body.1 ≠ (m, s.issued m) := by
      intro he
      rw [he, h.fresh m _ (Nat.le_refl _)] at hdone
      cases hdone
    have hsame : (s.issue m).calls l.body.1 = s.calls l.body.1 := Obj.setCall_other _ _ _ _ hne
    rw [hsame]
    exact hh l hl
  | timer j =>
    obtain ⟨-, -, rfl⟩ := step_timer hs
    intro l hl
    by_cases hlj : l.body.1 = j
    · subst hlj
      simpa using hh l hl
    · rw [Obj.setCall_other _ _ _ _ hlj]
      exact hh l hl
  | resume j r =>
    obtain ⟨-, hres⟩ := step_resume hs
    have hne : ∀ l ∈ s.listeners, l.body.1 ≠ j := by
      rintro l hl rfl
      exact resume_not_done hres (h.listener l hl).1
    intro l hl
    rcases h.resume_cases j r hres with ⟨err, -, -, rfl⟩ | ⟨-, -, rfl⟩ | ⟨message, -, rfl⟩
    · rw [Obj.setCall_other _ _ _ _ (hne l hl)]
      exact hh l hl
    · have hsame : (((s.lock j.1.key).setCall j ⟨.done, .pending, 1⟩).inTurn j).calls l.body.1 =
          s.calls l.body.1 := Obj.setCall_other _ _ _ _ (hne l hl)
      rw [hsame]
      exact hh l hl
    · rw [Obj.setCall_other _ _ _ _ (hne l hl)]
      exact hh l hl
  | register =>
    obtain ⟨j, hrun, rfl⟩ := step_register hs
    intro l hl
    rcases List.mem_append.mp hl with hold | hnew
    · exact hh l hold
    · obtain ⟨o, -, rfl⟩ := List.mem_map.mp hnew
      exact (h.running j hrun).1
  | emit event args =>
    obtain ⟨-, rfl⟩ := step_emit hs
    intro l hl
    rw [Obj.emit_listeners] at hl
    rw [Obj.emit_call]
    exact hh l (List.mem_filter.mp hl).1

end Promises

inductive Completion : Once → Callback → Prop
  | joinSuccess : Completion ⟨"JoinSuccess", .resolve⟩ (.channel .onJoinSuccess)
  | joinFailure (code : BitVec 32) :
    Completion ⟨"JoinFailure", .reject⟩ (.channel (.onJoinFailure code))
  | leave (code : BitVec 32) : Completion ⟨"LeaveChannel", .resolve⟩ (.channel (.onLeave code))
  | loginSuccess : Completion ⟨"LoginSuccess", .resolve⟩ (.controller .onLoginSuccess)
  | loginFailure (code : BitVec 32) :
    Completion ⟨"LoginFailure", .reject⟩ (.controller (.onLoginFailure code))
  | logout (code : BitVec 32) : Completion ⟨"Logout", .resolve⟩ (.controller (.onLogout code))

theorem eventOf_ne {cb : Callback} {event : String} (h : event = eventOf cb)
    (hne : (event == eventOf cb) = false) : False := by
  simp [h] at hne

theorem completion_of_event (m : Method c) (o : Once) (ho : o ∈ m.guarded.onces) (cb : Callback)
    (he : o.event = eventOf cb) : Completion o cb := by
  cases m with
  | join =>
    rcases List.mem_cons.mp ho with rfl | ho
    · rcases cb with c | c <;> cases c <;> first
        | exact .joinSuccess
        | exact (eventOf_ne he rfl).elim
    · obtain rfl := List.mem_singleton.mp ho
      rcases cb with c | c <;> cases c <;> first
        | exact .joinFailure _
        | exact (eventOf_ne he rfl).elim
  | leave =>
    obtain rfl := List.mem_singleton.mp ho
    rcases cb with c | c <;> cases c <;> first
      | exact .leave _
      | exact (eventOf_ne he rfl).elim
  | login =>
    rcases List.mem_cons.mp ho with rfl | ho
    · rcases cb with c | c <;> cases c <;> first
        | exact .loginSuccess
        | exact (eventOf_ne he rfl).elim
    · obtain rfl := List.mem_singleton.mp ho
      rcases cb with c | c <;> cases c <;> first
        | exact .loginFailure _
        | exact (eventOf_ne he rfl).elim
  | logout =>
    obtain rfl := List.mem_singleton.mp ho
    rcases cb with c | c <;> cases c <;> first
      | exact .logout _
      | exact (eventOf_ne he rfl).elim

section Outcomes

variable {o : Once} {cb : Callback} {mem later : Memory} {task : Task} {argv : List JsValue}

theorem Completion.honest (h : Completion o cb) (hp : cb.post mem = some task)
    (hargv : task.argv later = some argv) (hr : reportsFailure cb = false) :
    (o.settle.outcome argv = .fulfilled → succeeded cb = true) ∧
    ∀ code, errorCode cb = some code → code ≠ 0 →
      o.settle.outcome argv = .rejected (.code (some (.scalar (.number code.toInt)))) := by
  cases h with
  | joinSuccess => exact ⟨fun _ => rfl, by simp [errorCode]⟩
  | loginSuccess => exact ⟨fun _ => rfl, by simp [errorCode]⟩
  | joinFailure code =>
    obtain rfl := Option.some.inj hp
    obtain rfl := Option.some.inj hargv
    refine ⟨by simp [Settle.outcome], ?_⟩
    intro code' hcode _
    obtain rfl : code = code' := Option.some.inj hcode
    rfl
  | loginFailure code =>
    obtain rfl := Option.some.inj hp
    obtain rfl := Option.some.inj hargv
    refine ⟨by simp [Settle.outcome], ?_⟩
    intro code' hcode _
    obtain rfl : code = code' := Option.some.inj hcode
    rfl
  | leave code =>
    have hzero : code = 0 := by simpa [reportsFailure] using hr
    refine ⟨fun _ => by simp [succeeded, hzero], ?_⟩
    intro code' hcode hne
    obtain rfl : code = code' := Option.some.inj hcode
    exact absurd hzero hne
  | logout code =>
    have hzero : code = 0 := by simpa [reportsFailure] using hr
    refine ⟨fun _ => by simp [succeeded, hzero], ?_⟩
    intro code' hcode hne
    obtain rfl : code = code' := Option.some.inj hcode
    exact absurd hzero hne

theorem Completion.dishonest (h : Completion o cb) (hr : reportsFailure cb = true) :
    o.settle.outcome argv = .fulfilled ∧ succeeded cb = false := by
  cases h with
  | leave code =>
    have hne : code ≠ 0 := by simpa [reportsFailure] using hr
    exact ⟨rfl, by simpa [succeeded] using hne⟩
  | logout code =>
    have hne : code ≠ 0 := by simpa [reportsFailure] using hr
    exact ⟨rfl, by simpa [succeeded] using hne⟩
  | _ => cases hr

end Outcomes

structure Sound (S : Ledger c) : Prop where
  sane : Sane S.obj
  heard : Heard S.obj
  genuine : ∀ p ∈ S.posted, kindOf p.1 = kindOfClass c ∧ ∃ m, p.1.post m = some p.2
  settled : ∀ i, S.settledBy i ≠ none → (S.obj.calls i).promise ≠ .pending

theorem init_sound : Sound (init c) where
  sane := init_sane
  heard _ h := by cases h
  genuine _ h := by cases h
  settled _ h := absurd rfl h

theorem Sound.argv {S : Ledger c} (h : Sound S) {cb : Callback} {task : Task}
    {rest : List (Callback × Task)} (hposted : S.posted = (cb, task) :: rest) {later : Memory}
    {n : Notice} (hn : received (kindOfClass c) later task = some n) :
    ∃ m, cb.post m = some task ∧ task.argv later = some n.2 ∧ n.1 = task.event := by
  obtain ⟨hk, m, hp⟩ := h.genuine (cb, task) (by simp [hposted])
  exact ⟨m, hp, received_some hp (hk ▸ hn)⟩

theorem noted_settled {S : Ledger c} {cb : Callback} {t : Obj c} {i : Id c}
    (h : noted S cb t i ≠ none)
    (hkeep : (S.obj.calls i).promise ≠ .pending → (t.calls i).promise ≠ .pending)
    (hold : S.settledBy i ≠ none → (S.obj.calls i).promise ≠ .pending) :
    (t.calls i).promise ≠ .pending := by
  unfold noted at h
  split at h
  · rename_i hnew
    exact hnew.2
  · exact hkeep (hold h)

theorem step_sound (S : Ledger c) (a : Action c) (T : Ledger c) (h : Sound S)
    (hs : step S a = some T) : Sound T := by
  rcases step_cases hs with ⟨b, t, -, hne, ht, rfl⟩ | ⟨m, cb, task, -, hk, hp, rfl⟩ |
    ⟨later, cb, task, rest, n, -, hposted, -, hrun, ht, rfl⟩
  · refine ⟨step_sane _ _ _ h.sane ht, step_heard h.sane h.heard ht, h.genuine, ?_⟩
    intro i hi hpending
    have hold := h.settled i hi
    rcases step_promise h.sane ht hne i with hsame | ⟨hp, -⟩
    · exact hold (hsame ▸ hpending)
    · exact hold hp
  · refine ⟨h.sane, h.heard, ?_, h.settled⟩
    intro p hmem
    rcases List.mem_append.mp hmem with hold | hnew
    · exact h.genuine p hold
    · obtain rfl := List.mem_singleton.mp hnew
      exact ⟨hk, m, hp⟩
  · refine ⟨step_sane _ _ _ h.sane ht, step_heard h.sane h.heard ht,
      fun p hmem => h.genuine p (by simp [hposted, hmem]), ?_⟩
    intro i hi
    refine noted_settled hi ?_ (h.settled i)
    intro hold
    rw [Obj.emit_settled _ _ _ _ hold]
    exact hold

theorem step_kept {S T : Ledger c} {a : Action c} (h : Sound S) (hs : step S a = some T) (i : Id c)
    (hi : (S.obj.calls i).promise ≠ .pending) :
    (T.obj.calls i).promise = (S.obj.calls i).promise ∧ T.settledBy i = S.settledBy i := by
  rcases step_cases hs with ⟨b, t, -, hne, ht, rfl⟩ | ⟨m, cb, task, -, hk, hp, rfl⟩ |
    ⟨later, cb, task, rest, n, -, hposted, -, hrun, -, rfl⟩
  · exact ⟨(step_promise h.sane ht hne i).resolve_right fun hp => hi hp.1, rfl⟩
  · exact ⟨rfl, rfl⟩
  · exact ⟨by rw [Obj.emit_settled _ _ _ _ hi], by simp [noted, hi]⟩

theorem step_honest (S : Ledger c) (a : Action c) (T : Ledger c) (h : Sound S ∧ Honest S)
    (ha : Unfailing S a) (hs : step S a = some T) : Sound T ∧ Honest T := by
  obtain ⟨hsound, hhonest⟩ := h
  refine ⟨step_sound S a T hsound hs, ?_⟩
  -- what concerns a call that has been settled before the step stays true of it
  have hkept := fun i => step_kept hsound hs i
  rcases step_cases hs with ⟨b, t, -, hne, ht, rfl⟩ | ⟨m, cb, task, -, hk, hp, rfl⟩ |
    ⟨later, cb, task, rest, n, rfl, hposted, hn, hrun, ht, rfl⟩
  · constructor
    · intro i hi
      rcases step_promise hsound.sane ht hne i with hsame | ⟨-, reason, hrej⟩
      · exact hhonest.success i (hsame ▸ hi)
      · rw [hrej] at hi
        cases hi
    · intro i cb code hby hcode hnz
      have hset := hsound.settled i (by simpa using ne_of_eq_of_ne hby (by simp))
      rw [(hkept i hset).1]
      exact hhonest.failure i cb code hby hcode hnz
  · exact ⟨hhonest.success, hhonest.failure⟩
  · obtain ⟨mem, hp, hargv, hevent⟩ := hsound.argv hposted hn
    -- the outcome of a call that this event settles
    have hnew : ∀ i, (S.obj.calls i).promise = .pending →
        ((S.obj.emit n.1 n.2).calls i).promise ≠ .pending →
        ∃ o, Completion o cb ∧ ((S.obj.emit n.1 n.2).calls i).promise = o.settle.outcome n.2 ∧
          reportsFailure cb = false := by
      intro i hpend hset
      obtain ⟨x, hmem, houtcome⟩ := emit_settlement hsound.sane n.1 n.2 i hpend hset
      have hown := (hsound.sane.listener _ hmem).2
      have hcomp := completion_of_event i.1 _ hown cb (hevent.trans (post_shape hp).1)
      refine ⟨_, hcomp, houtcome, ?_⟩
      by_contra hfails
      exact ha (cb, task) (by simp [hposted]) (by simpa using hfails) i ⟨_, hown, hevent⟩
        ⟨hsound.heard _ hmem, hpend⟩
    constructor
    · intro i hi
      by_cases hpend : (S.obj.calls i).promise = .pending
      · have hset : ((S.obj.emit n.1 n.2).calls i).promise ≠ .pending := ne_of_eq_of_ne hi (by simp)
        obtain ⟨o, hcomp, houtcome, hr⟩ := hnew i hpend hset
        refine ⟨cb, by simp [noted, hpend, hset], ?_⟩
        exact (hcomp.honest hp hargv hr).1 (houtcome.symm.trans hi)
      · obtain ⟨hprom, hby⟩ := hkept i hpend
        rw [hby]
        exact hhonest.success i (hprom ▸ hi)
    · intro i cb' code hby hcode hnz
      by_cases hpend : (S.obj.calls i).promise = .pending
      · by_cases hset : ((S.obj.emit n.1 n.2).calls i).promise = .pending
        · have hold : S.settledBy i = some cb' := by simpa [noted, hset] using hby
          exact absurd hpend (hsound.settled i (by simp [hold]))
        · obtain ⟨o, hcomp, houtcome, hr⟩ := hnew i hpend hset
          obtain rfl : cb = cb' := by simpa [noted, hpend, hset] using hby
          exact houtcome.trans ((hcomp.honest hp hargv hr).2 code hcode hnz)
      · obtain ⟨hprom, hby'⟩ := hkept i hpend
        rw [hprom]
        exact hhonest.failure i cb' code (hby' ▸ hby) hcode hnz

theorem init_honest : Honest (init c) where
  success _ h := by cases h
  failure _ _ _ h := by cases h

theorem reach_sound {ok : Ledger c → Action c → Prop} {S : Ledger c}
    (h : Reach step ok (init c) S) : Sound S :=
  h.invariant init_sound fun S a T hS _ hs => step_sound S a T hS hs

theorem reach_honest {S : Ledger c} (h : Reach step Unfailing (init c) S) : Honest S := by
  have h0 : Sound (init c) ∧ Honest (init c) := ⟨init_sound, init_honest⟩
  exact (h.invariant (I := fun S => Sound S ∧ Honest S) h0 step_honest).2

/-- A failure that a call in flight is told by its only event fulfils its promise. -/
theorem misled {S T : Ledger c} {a : Action c} (h : Sound S) (ha : ¬ Unfailing S a)
    (hs : step S a = some T) :
    ∃ i cb, (T.obj.calls i).promise = .fulfilled ∧ T.settledBy i = some cb ∧
      succeeded cb = false := by
  rcases step_cases hs with ⟨b, t, rfl, -⟩ | ⟨m, cb, task, rfl, -⟩ |
    ⟨later, cb, task, rest, n, rfl, hposted, hn, hrun, ht, rfl⟩
  · exact absurd trivial ha
  · exact absurd trivial ha
  · obtain ⟨mem, hp, hargv, hevent⟩ := h.argv hposted hn
    obtain ⟨i, ⟨o, ho, he⟩, hfly, hr⟩ : ∃ i : Id c, i.1.Completes task.event ∧ S.obj.InFlight i ∧
        reportsFailure cb = true := by
      simpa [Unfailing, hposted, and_comm, and_left_comm, and_assoc] using ha
    have hcomp := completion_of_event i.1 o ho cb (he.trans (post_shape hp).1)
    have hout := (h.sane.emit_completes hrun n.1 n.2 i o ho (he.trans hevent.symm) hfly).1
    obtain ⟨hful, hfail⟩ : o.settle.outcome n.2 = .fulfilled ∧ succeeded cb = false :=
      hcomp.dishonest hr
    refine ⟨i, cb, hout.trans hful, ?_, hfail⟩
    simp [noted, hfly.2, hout, hful]

/-- Promises are honest in every run in which no failure is reported by the only
event of a call in flight; once one is, they are not. -/
theorem fulfilled_means_success (c : JsClass) :
    (∀ S : Ledger c, Reach step Unfailing (init c) S → Honest S) ∧
    ∀ (S T U : Ledger c) (a : Action c), Reach step always (init c) S → ¬ Unfailing S a →
      step S a = some T → Reach step always T U → ¬ Honest U := by
  refine ⟨fun S h => reach_honest h, ?_⟩
  intro S T U a h ha hs hU hhonest
  have hsound := reach_sound h
  obtain ⟨i, cb, hful, hby, hfail⟩ := misled hsound ha hs
  have hlast : Sound U ∧ (U.obj.calls i).promise = .fulfilled ∧ U.settledBy i = some cb := by
    refine hU.invariant (I := fun U => Sound U ∧ (U.obj.calls i).promise = .fulfilled ∧
      U.settledBy i = some cb) ⟨step_sound S a T hsound hs, hful, hby⟩ ?_
    intro V b W hV _ hW
    obtain ⟨hprom, hnote⟩ := step_kept hV.1 hW i (by simp [hV.2.1])
    exact ⟨step_sound V b W hV.1 hW, hprom.trans hV.2.1, hnote.trans hV.2.2⟩
  obtain ⟨cb', hby', hsucc⟩ := hhonest.success i hlast.2.1
  obtain rfl : cb = cb' := Option.some.inj (hlast.2.2.symm.trans hby')
  rw [hfail] at hsucc
  cases hsucc

def joinFails (errorCode : BitVec 32) : List (Action .AgoraRtmChannel) :=
  [.js (.call .join), .js (.timer (.join, 0)), .js (.resume (.join, 0) (.accepted 0)),
    .js .register, .native (fun _ => none) (.channel (.onJoinFailure errorCode)),
    .emit fun _ => none]

def leaveFails (errorCode : BitVec 32) : List (Action .AgoraRtmChannel) :=
  [.js (.call .leave), .js (.timer (.leave, 0)), .js (.resume (.leave, 0) (.accepted 0)),
    .js .register, .native (fun _ => none) (.channel (.onLeave errorCode)),
    .emit fun _ => none]

theorem fulfilled_means_success_join :
    Honest (final step always (init .AgoraRtmChannel) (joinFails 4)) ∧
    ¬ Honest (final step always (init .AgoraRtmChannel) (leaveFails 1)) := by
  have hjoin : Reach step Unfailing (init .AgoraRtmChannel)
      (final step always (init .AgoraRtmChannel) (joinFails 4)) := by
    refine Reach.tail (a := .emit fun _ => none) (Reach.tail
      (a := .native (fun _ => none) (.channel (.onJoinFailure 4))) (Reach.tail (a := .js .register)
      (Reach.tail (a := .js (.resume (.join, 0) (.accepted 0))) (Reach.tail
      (a := .js (.timer (.join, 0))) (Reach.tail (a := .js (.call .join)) (Reach.refl _)
      trivial rfl) trivial rfl) trivial rfl) trivial rfl) trivial rfl) ?_ rfl
    intro p hp hfails
    obtain rfl := Option.some.inj hp
    cases hfails
  have hleave : ¬ Unfailing (final step always (init .AgoraRtmChannel) ((leaveFails 1).take 5))
      (.emit fun _ => none) :=
    fun h => h _ rfl rfl (.leave, 0) (by decide) (by decide)
  exact ⟨(fulfilled_means_success .AgoraRtmChannel).1 _ hjoin,
    (fulfilled_means_success .AgoraRtmChannel).2 _ _ _ _ (reach_final rfl) hleave rfl
      (Reach.refl _)⟩

/-- A leave whose only event reports an error code is fulfilled. -/
theorem failed_leave_fulfilled :
    ¬ ∀ S : Ledger .AgoraRtmChannel, Reach step always (init .AgoraRtmChannel) S → Honest S := by
  intro h
  have hreach : Reach step always (init .AgoraRtmChannel)
      (final step always (init .AgoraRtmChannel) (leaveFails 1)) := reach_final rfl
  obtain ⟨cb, hcb, hsucc⟩ := (h _ hreach).success (.leave, 0) rfl
  obtain rfl := Option.some.inj hcb
  revert hsucc
  decide

end AgoraRtm.Settlement
