import AgoraRtm.AdapterInvariant

/-!
# The adapter and the native side

The native side answers an accepted operation with one completion event, at
any time after the native method has accepted it: the event may be posted
before the turn has registered its listeners. Between the post and the emission
lies one queue, in order. A native method that fails without a completion event
either throws or returns; the adapter looks at the first only.
-/

set_option autoImplicit false

namespace AgoraRtm.NativeSystem
open Runs Adapter NativeEvents

variable {c : JsClass}

inductive Answer where
  | success
  | failure (errorCode : BitVec 32)
  deriving DecidableEq, Repr

def callback : {c : JsClass} → Method c → Answer → Callback
  | _, .join, .success => .channel .onJoinSuccess
  | _, .join, .failure errorCode => .channel (.onJoinFailure errorCode)
  | _, .leave, .success => .channel (.onLeave 0)
  | _, .leave, .failure errorCode => .channel (.onLeave errorCode)
  | _, .login, .success => .controller .onLoginSuccess
  | _, .login, .failure errorCode => .controller (.onLoginFailure errorCode)
  | _, .logout, .success => .controller (.onLogout 0)
  | _, .logout, .failure errorCode => .controller (.onLogout errorCode)

abbrev Notice := String × List JsValue

def notice (m : Memory) (cb : Callback) : Option Notice := do
  let task ← cb.post m
  let argv ← task.argv m
  return (task.event, argv)

def completion (m : Method c) (a : Answer) : Option Notice := notice (fun _ => none) (callback m a)

structure System (c : JsClass) where
  obj : Obj c
  /-- Accepted operations that have not been answered. -/
  outstanding : Method c → ℕ
  posted : List Notice
  answers : Method c → List Answer

def init (c : JsClass) : System c := ⟨Adapter.init c, fun _ => 0, [], fun _ => []⟩

inductive Action (c : JsClass) where
  | js (a : Adapter.Action c)
  | answer (m : Method c) (a : Answer)
  | notify (n : Notice)
  | deliver

def accepts : Native → Bool
  | .accepted _ => true
  | _ => false

def launched (S : System c) : Adapter.Action c → Method c → ℕ
  | .resume i r =>
    if (S.obj.calls i).phase = .passed ∧ accepts r = true then
      Function.update S.outstanding i.1 (S.outstanding i.1+1)
    else S.outstanding
  | _ => S.outstanding

def answered (S : System c) (m : Method c) (a : Answer) (n : Notice) : System c :=
  { S with
    outstanding := Function.update S.outstanding m (S.outstanding m-1)
    posted := S.posted ++ [n]
    answers := Function.update S.answers m (S.answers m ++ [a]) }

def step (S : System c) : Action c → Option (System c)
  | .js (.emit _ _) => none
  | .js a => (Adapter.step S.obj a).map fun t => { S with obj := t, outstanding := launched S a }
  | .answer m a => if 0 < S.outstanding m then (completion m a).map (answered S m a) else none
  | .notify n => some { S with posted := S.posted ++ [n] }
  | .deliver =>
    match S.posted with
    | [] => none
    | n :: rest =>
      (Adapter.step S.obj (.emit n.1 n.2)).map fun t => { S with obj := t, posted := rest }

theorem completion_completes (m : Method c) (a : Answer) (n : Notice)
    (h : completion m a = some n) : m.Completes n.1 := by
  cases m <;> cases a <;> obtain rfl := Option.some.inj h <;> (simp only []; decide)

theorem step_cases {S T : System c} {a : Action c} (hs : step S a = some T) :
    (∃ b t, a = .js b ∧ (∀ event args, b ≠ .emit event args) ∧ Adapter.step S.obj b = some t ∧
      T = { S with obj := t, outstanding := launched S b }) ∨
    (∃ m ans n, a = .answer m ans ∧ 0 < S.outstanding m ∧ completion m ans = some n ∧
      T = answered S m ans n) ∨
    (∃ n, a = .notify n ∧ T = { S with posted := S.posted ++ [n] }) ∨
    (∃ n rest, a = .deliver ∧ S.posted = n :: rest ∧ S.obj.running = none ∧
      T = { S with obj := S.obj.emit n.1 n.2, posted := rest }) := by
  cases a with
  | js b =>
    left
    by_cases hb : ∃ event args, b = .emit event args
    · obtain ⟨event, args, rfl⟩ := hb
      cases hs
    · have hne : ∀ event args, b ≠ .emit event args := fun event args he => hb ⟨event, args, he⟩
      have hmap : (Adapter.step S.obj b).map (fun t =>
          { S with obj := t, outstanding := launched S b }) = some T := by
        cases b <;> first | exact hs | exact absurd rfl (hne _ _)
      obtain ⟨t, ht, rfl⟩ := Option.map_eq_some_iff.mp hmap
      exact ⟨b, t, rfl, hne, ht, rfl⟩
  | answer m ans =>
    right; left
    simp only [step] at hs
    split at hs
    · rename_i hpos
      obtain ⟨n, hn, rfl⟩ := Option.map_eq_some_iff.mp hs
      exact ⟨m, ans, n, rfl, hpos, hn, rfl⟩
    · cases hs
  | notify n =>
    right; right; left
    exact ⟨n, rfl, (Option.some.inj hs).symm⟩
  | deliver =>
    right; right; right
    simp only [step] at hs
    split at hs
    · cases hs
    · rename_i n rest hposted
      obtain ⟨t, ht, rfl⟩ := Option.map_eq_some_iff.mp hs
      obtain ⟨hrun, rfl⟩ := step_emit ht
      exact ⟨n, rest, rfl, hposted, hrun, rfl⟩

theorem step_obj_sane (S : System c) (a : Action c) (T : System c) (h : Sane S.obj)
    (hs : step S a = some T) : Sane T.obj := by
  rcases step_cases hs with ⟨b, t, -, -, ht, rfl⟩ | ⟨m, ans, n, -, -, -, rfl⟩ | ⟨n, -, rfl⟩ |
    ⟨n, rest, -, -, hrun, rfl⟩
  · exact step_sane S.obj b t h ht
  · exact h
  · exact h
  · exact h.emit hrun n.1 n.2

def turn (s : Obj c) (i : Id c) (r : Native) : Option (Obj c) :=
  (Adapter.step s (.resume i r)).bind fun t =>
    match t.running with
    | none => some t
    | some _ => Adapter.step t .register

/-- What a native call that failed must leave behind. -/
structure Released (s : Obj c) (i : Id c) : Prop where
  rejected : ∃ reason, (s.calls i).promise = .rejected reason
  unlocked : ¬ s.Locked i.1
  unlistened : ∀ l ∈ s.listeners, l.body.1 ≠ i

theorem turn_released {s u : Obj c} (h : Sane s) (i : Id c) (r : Native)
    (hp : (s.calls i).phase = .passed) (hu : turn s i r = some u) :
    Released u i ↔ ∃ err, r = .threw err := by
  obtain ⟨t, ht, hend⟩ := Option.bind_eq_some_iff.mp hu
  obtain ⟨hrun, hres⟩ := step_resume ht
  rcases h.resume_cases i r hres with ⟨err, -, rfl, rfl⟩ | ⟨-, hr, rfl⟩ | ⟨message, hp', -⟩
  · have hnone :
        ((s.unlock i.1.key).setCall i ⟨.done, .rejected (.thrown err), 1⟩).running = none := hrun
    simp only [hnone, Option.some.injEq] at hend
    subst hend
    refine ⟨fun _ => ⟨err, rfl⟩, fun _ => ⟨⟨.thrown err, by simp⟩, ?_, ?_⟩⟩
    · intro hl
      exact ((locked_unlock (s := s) rfl i.1).mp hl).1 rfl
    · intro l hl he
      have hdone := (h.listener l hl).1
      rw [he, hp] at hdone
      cases hdone
  · refine ⟨fun hrel => ?_, fun hthrew => ?_⟩
    · -- the turn ends in flight: the promise is pending
      obtain ⟨reason, hreason⟩ := hrel.rejected
      simp only [Obj.inTurn, Adapter.step, Option.some.injEq] at hend
      subst hend
      simp [Obj.register] at hreason
    · obtain ⟨err, rfl⟩ := hthrew
      exact absurd rfl (hr err)
  · rw [hp] at hp'
    cases hp'

/-- Runs in which a native method that fails throws. -/
def Throws (_ : System c) : Action c → Prop
  | .js (.resume _ (.failed _)) => False
  | _ => True

instance (S : System c) (a : Action c) : Decidable (Throws S a) := by
  unfold Throws
  split <;> infer_instance

structure Supplied (S : System c) : Prop where
  sane : Sane S.obj
  due : ∀ i, S.obj.InFlight i → 0 < S.outstanding i.1 ∨ ∃ n ∈ S.posted, i.1.Completes n.1

theorem init_supplied : Supplied (init c) where
  sane := init_sane
  due _ h := absurd h.1 (Nat.lt_irrefl 0)

theorem launched_le (S : System c) (b : Adapter.Action c) (m : Method c) :
    S.outstanding m ≤ launched S b m := by
  unfold launched
  split
  · split
    · rename_i i r _
      by_cases hm : m = i.1
      · simp [hm]
      · simp [hm]
    · exact Nat.le_refl _
  · exact Nat.le_refl _

theorem step_supplied (S : System c) (a : Action c) (T : System c) (h : Supplied S)
    (hok : Throws S a) (hs : step S a = some T) : Supplied T := by
  have hsane := step_obj_sane S a T h.sane hs
  refine ⟨hsane, ?_⟩
  intro j hj
  rcases step_cases hs with ⟨b, t, rfl, hne, ht, rfl⟩ | ⟨m, ans, n, rfl, hpos, hn, rfl⟩ |
    ⟨n, rfl, rfl⟩ | ⟨n, rest, rfl, hposted, hrun, rfl⟩
  · have hkeep : S.obj.InFlight j → 0 < launched S b j.1 ∨ ∃ n ∈ S.posted, j.1.Completes n.1 := by
      intro hold
      have hle := launched_le S b j.1
      rcases h.due j hold with hout | hqueued
      · exact Or.inl (by omega)
      · exact Or.inr hqueued
    rcases h.sane.step_cases ht with ⟨hfly, -⟩ | ⟨i, r, rfl, -, hres⟩ | ⟨event, args, rfl, -⟩
    · exact hkeep ((hfly j).mp hj)
    · rcases h.sane.resume_effect i r hres with ⟨-, hfly, -⟩ | ⟨hent, hfly, -⟩
      · exact hkeep ((hfly j).mp hj)
      · rcases (hfly j).mp hj with rfl | hold
        · -- it returned and did not fail, so it is accepted
          left
          have hacc : accepts r = true := by
            cases r with
            | threw err => cases hent.2
            | failed code => exact hok.elim
            | accepted code => rfl
          simp [launched, hent.1, hacc]
        · exact hkeep hold
    · exact absurd rfl (hne event args)
  · by_cases hm : j.1 = m
    · exact Or.inr ⟨n, by simp [answered], hm ▸ completion_completes m ans n hn⟩
    · rcases h.due j hj with hout | ⟨e, he, hce⟩
      · exact Or.inl (by simpa [answered, hm] using hout)
      · exact Or.inr ⟨e, by simp [answered, he], hce⟩
  · rcases h.due j hj with hout | ⟨e, he, hce⟩
    · exact Or.inl hout
    · exact Or.inr ⟨e, by simp [he], hce⟩
  · obtain ⟨hnot, hold⟩ := (h.sane.emit_inFlight hrun n.1 n.2 j).mp hj
    rcases h.due j hold with hout | ⟨e, he, hce⟩
    · exact Or.inl hout
    · rw [hposted] at he
      rcases List.mem_cons.mp he with rfl | hrest
      · exact absurd hce hnot
      · exact Or.inr ⟨e, hrest, hce⟩

theorem reach_supplied {S : System c} (h : Reach step Throws (init c) S) : Supplied S :=
  h.invariant init_supplied step_supplied

/-- A key that nothing will open. -/
def Wedged (S : System c) (m : Method c) : Prop :=
  S.obj.Locked m ∧ S.outstanding m = 0 ∧ ∀ n ∈ S.posted, ¬ m.Completes n.1

theorem Supplied.not_wedged {S : System c} (h : Supplied S) (m : Method c) : ¬ Wedged S m := by
  intro hw
  obtain ⟨n, hn⟩ := h.sane.locked m hw.1
  rcases h.due (m, n) hn with hout | ⟨e, he, hce⟩
  · exact absurd hw.2.1 (Nat.ne_of_gt hout)
  · exact hw.2.2 e he hce

theorem failed_wedges {S T : System c} (h : Sane S.obj) (i : Id c) (code : ℤ)
    (hp : (S.obj.calls i).phase = .passed) (hout : S.outstanding i.1 = 0)
    (hposted : ∀ n ∈ S.posted, ¬ i.1.Completes n.1)
    (hs : step S (.js (.resume i (.failed code))) = some T) : Wedged T i.1 := by
  rcases step_cases hs with ⟨b, t, ha, -, ht, rfl⟩ | ⟨m, ans, n, ha, -⟩ | ⟨n, ha, -⟩ |
    ⟨n, rest, ha, -⟩
  · obtain rfl : Adapter.Action.resume i (.failed code) = b := by simpa using ha
    rcases h.resume_effect i _ (step_resume ht).2 with ⟨hcatch, -⟩ | ⟨-, -, hmutex⟩
    · exact absurd ⟨hp, rfl⟩ hcatch
    · exact ⟨(locked_lock hmutex i.1).mpr (Or.inl rfl), by simpa [launched, accepts] using hout,
        hposted⟩
  · cases ha
  · cases ha
  · cases ha

/-- A native call that fails without a completion event is released just if it
threw. In runs in which every failure is an exception no key is wedged; one
failure by return code, with nothing else under way, wedges it at once. -/
theorem failure_released (c : JsClass) :
    (∀ (s u : Obj c) (i : Id c) (r : Native), Reach Adapter.step always (Adapter.init c) s →
      (s.calls i).phase = .passed → accepts r = false → turn s i r = some u →
      (Released u i ↔ ∃ err, r = .threw err)) ∧
    (∀ S : System c, Reach step Throws (init c) S → ∀ m, ¬ Wedged S m) ∧
    (∀ (S T : System c) (i : Id c) (code : ℤ), Reach step always (init c) S →
      (S.obj.calls i).phase = .passed → S.outstanding i.1 = 0 →
      (∀ n ∈ S.posted, ¬ i.1.Completes n.1) →
      step S (.js (.resume i (.failed code))) = some T → Wedged T i.1) := by
  refine ⟨?_, ?_, ?_⟩
  · intro s u i r h hp _ hu
    exact turn_released (reach_sane h) i r hp hu
  · intro S h m
    exact (reach_supplied h).not_wedged m
  · intro S T i code h hp hout hposted hs
    have hsane : Sane S.obj := h.invariant init_sane fun S a T h _ => step_obj_sane S a T h
    exact failed_wedges hsane i code hp hout hposted hs

def joinWait : List (Adapter.Action .AgoraRtmChannel) := [.call .join, .timer (.join, 0)]

def joinWaiting : Obj .AgoraRtmChannel := final Adapter.step always (Adapter.init _) joinWait

def joinRun : List (Action .AgoraRtmChannel) := joinWait.map .js

theorem failure_released_join :
    Released ((joinWaiting.enter (.join, 0)).caught (.join, 0) (.thrown "err")) (.join, 0) ∧
    ¬ Wedged (final step Throws (init .AgoraRtmChannel) joinRun) .join ∧
    Wedged (final step always (init .AgoraRtmChannel)
      (joinRun ++ [.js (.resume (.join, 0) (.failed (-1)))])) .join :=
  ⟨((failure_released _).1 joinWaiting _ (.join, 0) (.threw "err") (reach_final rfl) rfl rfl
      rfl).mpr ⟨"err", rfl⟩,
    (failure_released _).2.1 _ (reach_final rfl) .join,
    (failure_released _).2.2 (final step always (init .AgoraRtmChannel) joinRun) _ (.join, 0) (-1)
      (reach_final rfl) rfl rfl (by decide) rfl⟩

/-- `join` returns -1: the promise stays pending, the key locked, and no event
of the join is due or queued. -/
theorem returned_error_wedges :
    (¬ ∀ (s u : Obj .AgoraRtmChannel) (i : Id .AgoraRtmChannel) (r : Native),
      Reach Adapter.step always (Adapter.init .AgoraRtmChannel) s → (s.calls i).phase = .passed →
      accepts r = false → turn s i r = some u → Released u i) ∧
    ¬ ∀ S : System .AgoraRtmChannel, Reach step always (init .AgoraRtmChannel) S →
      ∀ m, ¬ Wedged S m := by
  constructor
  · intro h
    have hrel := h joinWaiting _ (.join, 0) (.failed (-1)) (reach_final rfl) rfl rfl rfl
    obtain ⟨reason, hreason⟩ := hrel.rejected
    cases hreason
  · intro h
    have hreach : Reach step always (init .AgoraRtmChannel) (final step always
        (init .AgoraRtmChannel) (joinRun ++ [.js (.resume (.join, 0) (.failed (-1)))])) :=
      reach_final rfl
    exact h _ hreach .join ⟨by decide, rfl, by decide⟩

end AgoraRtm.NativeSystem
