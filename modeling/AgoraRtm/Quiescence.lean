import AgoraRtm.NativeSystem
import AgoraRtm.ListenerTable
import AgoraRtm.Progress

/-!
# Every promise settles

The client stops calling, and what is under way goes on: timers expire,
continuations run, the native side answers what it has accepted, and posted
events are emitted. Where every native failure is an exception these runs end,
and they end only with all promises settled and all keys unlocked.
-/

set_option autoImplicit false

namespace AgoraRtm.NativeSystem
open Runs Adapter NativeEvents

variable {c : JsClass}

/-- No calls any more, no events but completions, and failures throw. -/
def Winding (_ : System c) : Action c → Prop
  | .js (.call _) => False
  | .js (.resume _ (.failed _)) => False
  | .notify _ => False
  | _ => True

instance (S : System c) (a : Action c) : Decidable (Winding S a) :=
  match a with
  | .js (.call _) => .isFalse id
  | .js (.timer _) => .isTrue trivial
  | .js (.resume _ (.threw _)) => .isTrue trivial
  | .js (.resume _ (.failed _)) => .isFalse id
  | .js (.resume _ (.accepted _)) => .isTrue trivial
  | .js .register => .isTrue trivial
  | .js (.emit _ _) => .isTrue trivial
  | .answer _ _ => .isTrue trivial
  | .notify _ => .isFalse id
  | .deliver => .isTrue trivial

/-- No calls any more and no events but completions; native methods may fail. -/
def Uncalled (_ : System c) : Action c → Prop
  | .js (.call _) => False
  | .notify _ => False
  | _ => True

instance (S : System c) (a : Action c) : Decidable (Uncalled S a) :=
  match a with
  | .js (.call _) => .isFalse id
  | .js (.timer _) => .isTrue trivial
  | .js (.resume _ _) => .isTrue trivial
  | .js .register => .isTrue trivial
  | .js (.emit _ _) => .isTrue trivial
  | .answer _ _ => .isTrue trivial
  | .notify _ => .isFalse id
  | .deliver => .isTrue trivial

/-- The steps that a call has before it, those of its operation included. -/
def phaseWork : Phase → ℕ
  | .waiting => 5
  | .passed => 4
  | .refused _ => 1
  | _ => 0

def callWork (s : Obj c) (i : Id c) : ℕ := phaseWork (s.calls i).phase

def turnWork (s : Obj c) : ℕ := if s.running = none then 0 else 1

def issuedCalls (s : Obj c) : Finset (Id c) :=
  (methods c).toFinset.biUnion fun m => (Finset.range (s.issued m)).image fun n => (m, n)

def callsWork (s : Obj c) : ℕ := (issuedCalls s).sum (callWork s)

def operations (outstanding : Method c → ℕ) : ℕ := (methods c).toFinset.sum outstanding

def work (S : System c) : ℕ :=
  callsWork S.obj+turnWork S.obj+2*operations S.outstanding+S.posted.length

structure Accounted (s : Obj c) : Prop where
  begun : ∀ i, i.2 < s.issued i.1 → (s.calls i).phase ≠ .unissued
  ended : ∀ i, (s.calls i).phase = .done → s.InFlight i ∨ (s.calls i).promise ≠ .pending

theorem init_accounted : Accounted (Adapter.init c) where
  begun _ h := absurd h (Nat.not_lt_zero _)
  ended _ h := by cases h

section Turns

variable {s t : Obj c}

theorem Accounted.setCall (h : Accounted s) (i : Id c) (k : Call) (hbegun : k.phase ≠ .unissued)
    (hended : k.phase = .done → 0 < k.invoked ∧ k.promise = .pending ∨ k.promise ≠ .pending) :
    Accounted (s.setCall i k) := by
  constructor
  · intro j hj
    by_cases hji : j = i
    · subst hji
      simpa using hbegun
    · rw [Obj.setCall_other _ _ _ _ hji]
      exact h.begun j hj
  · intro j hj
    by_cases hji : j = i
    · subst hji
      simpa [Obj.InFlight] using hended (by simpa using hj)
    · rw [Obj.setCall_other _ _ _ _ hji] at hj ⊢
      rw [inFlight_congr (Obj.setCall_other _ _ _ _ hji)]
      exact h.ended j hj

theorem Accounted.emit (h : Accounted s) (event : String) (args : List JsValue) :
    Accounted (s.emit event args) := by
  constructor
  · intro i hi
    rw [Obj.emit_issued] at hi
    rw [Obj.emit_call]
    exact h.begun i hi
  · intro i hi
    have hphase : (s.calls i).phase = .done := by
      rw [Obj.emit_call] at hi
      exact hi
    rcases h.ended i hphase with hfly | hsettled
    · by_cases hp : ((s.emit event args).calls i).promise = .pending
      · left
        refine ⟨?_, hp⟩
        rw [Obj.emit_call]
        exact hfly.1
      · exact Or.inr hp
    · right
      rw [Obj.emit_settled s event args i hsettled]
      exact hsettled

theorem waited_begun (s : Obj c) (i : Id c) : s.waited i ≠ .unissued ∧ s.waited i ≠ .done := by
  unfold Obj.waited
  split <;> simp

theorem step_accounted {a : Adapter.Action c} (hsane : Sane s) (h : Accounted s)
    (hs : Adapter.step s a = some t) : Accounted t := by
  cases a with
  | call m =>
    obtain ⟨-, rfl⟩ := step_call hs
    have hset := h.setCall (m, s.issued m) ⟨.waiting, .pending, 0⟩ (by simp) (by simp)
    refine ⟨?_, hset.ended⟩
    intro i hi
    by_cases him : i = (m, s.issued m)
    · subst him
      simp [Obj.issue]
    · have hlt : i.2 < s.issued i.1 := by
        obtain ⟨m', n⟩ := i
        by_cases hm : m' = m
        · subst hm
          have hne : n ≠ s.issued m' := fun he => him (by rw [he])
          simp only [Obj.issue, Function.update_self] at hi
          show n < s.issued m'
          omega
        · simpa [Obj.issue, hm] using hi
      exact hset.begun i hlt
  | timer i =>
    obtain ⟨-, -, rfl⟩ := step_timer hs
    obtain ⟨hbegun, hdone⟩ := waited_begun s i
    exact h.setCall i _ hbegun fun he => absurd he hdone
  | resume i r =>
    obtain ⟨-, hres⟩ := step_resume hs
    rcases hsane.resume_cases i r hres with ⟨err, -, -, rfl⟩ | ⟨-, -, rfl⟩ | ⟨message, -, rfl⟩
    · exact Accounted.setCall (s := s.unlock i.1.key) ⟨h.begun, h.ended⟩ i _ (by simp) (by simp)
    · have hset := Accounted.setCall (s := s.lock i.1.key) ⟨h.begun, h.ended⟩ i
        ⟨.done, .pending, 1⟩ (by simp) (by simp)
      exact ⟨hset.begun, hset.ended⟩
    · exact Accounted.setCall (s := s.unlock i.1.key) ⟨h.begun, h.ended⟩ i _ (by simp) (by simp)
  | register =>
    obtain ⟨i, -, rfl⟩ := step_register hs
    exact ⟨h.begun, h.ended⟩
  | emit event args =>
    obtain ⟨-, rfl⟩ := step_emit hs
    exact h.emit event args

end Turns

section Measure

theorem mem_issuedCalls (s : Obj c) (i : Id c) : i ∈ issuedCalls s ↔ i.2 < s.issued i.1 := by
  obtain ⟨m, n⟩ := i
  simp [issuedCalls, mem_methods]

theorem setCall_work (s : Obj c) (i : Id c) (k : Call) (hi : i.2 < s.issued i.1) :
    callsWork (s.setCall i k)+phaseWork (s.calls i).phase = callsWork s+phaseWork k.phase := by
  have hsame : callWork (s.setCall i k) = Function.update (callWork s) i (phaseWork k.phase) := by
    ext j
    by_cases hj : j = i
    · subst hj
      simp [callWork]
    · simp [callWork, Obj.setCall_other _ _ _ _ hj, hj]
  show (issuedCalls s).sum (callWork (s.setCall i k))+callWork s i = _
  rw [hsame]
  exact sum_update _ _ i ((mem_issuedCalls s i).mpr hi) _

@[simp] theorem callsWork_lock (s : Obj c) (key : String) :
    callsWork (s.lock key) = callsWork s := rfl

@[simp] theorem callsWork_unlock (s : Obj c) (key : String) :
    callsWork (s.unlock key) = callsWork s := rfl

@[simp] theorem callsWork_inTurn (s : Obj c) (i : Id c) :
    callsWork (s.inTurn i) = callsWork s := rfl

@[simp] theorem callsWork_register (s : Obj c) (i : Id c) :
    callsWork (s.register i) = callsWork s := rfl

@[simp] theorem turnWork_setCall (s : Obj c) (i : Id c) (k : Call) :
    turnWork (s.setCall i k) = turnWork s := rfl

@[simp] theorem turnWork_unlock (s : Obj c) (key : String) :
    turnWork (s.unlock key) = turnWork s := rfl

@[simp] theorem turnWork_inTurn (s : Obj c) (i : Id c) : turnWork (s.inTurn i) = 1 := rfl

@[simp] theorem turnWork_register (s : Obj c) (i : Id c) : turnWork (s.register i) = 0 := rfl

theorem emit_work (s : Obj c) (event : String) (args : List JsValue) :
    callsWork (s.emit event args) = callsWork s := by
  have hissued : issuedCalls (s.emit event args) = issuedCalls s := by
    simp [issuedCalls, Obj.emit_issued]
  rw [callsWork, hissued]
  apply Finset.sum_congr rfl
  intro i _
  rw [callWork, Obj.emit_call]
  rfl

theorem waited_work (s : Obj c) (i : Id c) : phaseWork (s.waited i) ≤ 4 := by
  unfold Obj.waited
  split <;> simp [phaseWork]

theorem operations_update (outstanding : Method c → ℕ) (m : Method c) (n : ℕ) :
    operations (Function.update outstanding m n)+outstanding m = operations outstanding+n :=
  sum_update _ _ m (by simp [mem_methods]) n

end Measure

section Winding

variable {S T : System c}

/-- The calls that have been made; each is accounted for, and each in flight has
its completion to come. -/
structure Wound (issued : Method c → ℕ) (S : System c) : Prop where
  supplied : Supplied S
  accounted : Accounted S.obj
  issued : S.obj.issued = issued

theorem Winding.throws {a : Action c} (h : Winding S a) : Throws S a := by
  unfold Throws
  split
  · exact h
  · trivial

theorem Winding.uncalled {a : Action c} (h : Winding S a) : Uncalled S a := by
  cases a with
  | js b => cases b <;> trivial
  | notify n => exact h
  | _ => trivial

theorem operations_launched (U : System c) (b : Adapter.Action c) :
    operations (launched U b) = operations U.outstanding ∨
      operations (launched U b) = operations U.outstanding+1 := by
  cases b with
  | resume i r =>
    by_cases hacc : (U.obj.calls i).phase = .passed ∧ accepts r = true
    · right
      have hsum := operations_update U.outstanding i.1 (U.outstanding i.1+1)
      rw [launched, if_pos hacc]
      omega
    · left
      rw [launched, if_neg hacc]
  | _ => exact Or.inl rfl

theorem resume_lowers (h : Sane S.obj) {i : Id c} {r : Native} {t : Obj c}
    (hs : S.obj.resume i r = some t) :
    t.issued = S.obj.issued ∧ callsWork t+turnWork t+2*operations (launched S (.resume i r)) <
      callsWork S.obj+turnWork S.obj+2*operations S.outstanding := by
  have hissued := h.issued_of_phase i
  rcases h.resume_cases i r hs with ⟨err, hp, rfl, rfl⟩ | ⟨hp, -, rfl⟩ | ⟨message, hp, rfl⟩
  · refine ⟨rfl, ?_⟩
    have hsum := setCall_work (S.obj.unlock i.1.key) i ⟨.done, .rejected (.thrown err), 1⟩
      (hissued (by simp [hp]))
    have hout : launched S (.resume i (.threw err)) = S.outstanding := by
      simp [launched, accepts]
    simp only [Obj.unlock_calls, hp, phaseWork, callsWork_unlock] at hsum
    simp only [hout, turnWork_setCall, turnWork_unlock]
    omega
  · refine ⟨rfl, ?_⟩
    have hsum := setCall_work (S.obj.lock i.1.key) i ⟨.done, .pending, 1⟩
      (hissued (by simp [hp]))
    have hout := operations_launched S (.resume i r)
    simp only [Obj.lock_calls, hp, phaseWork, callsWork_lock] at hsum
    simp only [callsWork_inTurn, turnWork_inTurn]
    omega
  · refine ⟨rfl, ?_⟩
    have hsum := setCall_work (S.obj.unlock i.1.key) i ⟨.done, .rejected (.error message), 0⟩
      (hissued (by simp [hp]))
    have hout : launched S (.resume i r) = S.outstanding := by simp [launched, hp]
    simp only [Obj.unlock_calls, hp, phaseWork, callsWork_unlock] at hsum
    simp only [hout, turnWork_setCall, turnWork_unlock]
    omega

theorem turn_lowers (h : Sane S.obj) {b : Adapter.Action c} {t : Obj c}
    (hcall : ∀ m, b ≠ .call m) (hne : ∀ event args, b ≠ .emit event args)
    (hs : Adapter.step S.obj b = some t) :
    t.issued = S.obj.issued ∧ callsWork t+turnWork t+2*operations (launched S b) <
      callsWork S.obj+turnWork S.obj+2*operations S.outstanding := by
  cases b with
  | call m => exact absurd rfl (hcall m)
  | timer i =>
    obtain ⟨hrun, hw, rfl⟩ := step_timer hs
    refine ⟨rfl, ?_⟩
    have hsum := setCall_work S.obj i { S.obj.calls i with phase := S.obj.waited i }
      (h.issued_of_phase i (by simp [hw]))
    have hnew := waited_work S.obj i
    have hold : phaseWork (S.obj.calls i).phase = 5 := by rw [hw]; rfl
    simp only [launched, turnWork_setCall] at hsum ⊢
    omega
  | resume i r => exact resume_lowers h (step_resume hs).2
  | register =>
    obtain ⟨i, hrun, rfl⟩ := step_register hs
    refine ⟨rfl, ?_⟩
    have hturn : turnWork S.obj = 1 := by simp [turnWork, hrun]
    simp only [callsWork_register, turnWork_register, launched, hturn]
    omega
  | emit event args => exact absurd rfl (hne event args)

theorem uncalled_lowers {a : Action c} (h : Sane S.obj) (ha : Uncalled S a)
    (hs : step S a = some T) : T.obj.issued = S.obj.issued ∧ work T < work S := by
  rcases step_cases hs with ⟨b, t, rfl, hne, ht, rfl⟩ | ⟨m, ans, n, rfl, hpos, hn, rfl⟩ |
    ⟨n, rfl, rfl⟩ | ⟨n, rest, rfl, hposted, hrun, rfl⟩
  · have hcall : ∀ m, b ≠ .call m := by
      rintro m rfl
      exact ha
    obtain ⟨hissued, hlt⟩ := turn_lowers h hcall hne ht
    exact ⟨hissued, Nat.add_lt_add_right hlt _⟩
  · refine ⟨rfl, ?_⟩
    have hout := operations_update S.outstanding m (S.outstanding m-1)
    simp only [work, answered, List.length_append, List.length_singleton]
    omega
  · exact ha.elim
  · refine ⟨Obj.emit_issued _ _ _, ?_⟩
    have hturn : turnWork (S.obj.emit n.1 n.2) = turnWork S.obj := by
      simp [turnWork, Obj.emit_running]
    simp only [work, emit_work, hturn, hposted, List.length_cons]
    omega

theorem step_obj_accounted {a : Action c} (hsane : Sane S.obj) (h : Accounted S.obj)
    (hs : step S a = some T) : Accounted T.obj := by
  rcases step_cases hs with ⟨b, t, -, -, ht, rfl⟩ | ⟨m, ans, n, -, -, -, rfl⟩ | ⟨n, -, rfl⟩ |
    ⟨n, rest, -, -, -, rfl⟩
  · exact step_accounted hsane h ht
  · exact h
  · exact h
  · exact h.emit n.1 n.2

theorem step_wound {issued : Method c → ℕ} {a : Action c} (h : Wound issued S)
    (ha : Winding S a) (hs : step S a = some T) : Wound issued T ∧ work T < work S := by
  obtain ⟨hissued, hlt⟩ := uncalled_lowers h.supplied.sane ha.uncalled hs
  exact ⟨⟨step_supplied S a T h.supplied ha.throws hs,
    step_obj_accounted h.supplied.sane h.accounted hs, hissued.trans h.issued⟩, hlt⟩

structure Settled (issued : Method c → ℕ) (S : System c) : Prop where
  promises : ∀ m n, n < issued m → (S.obj.calls (m, n)).promise ≠ .pending
  unlocked : ∀ m, ¬ S.obj.Locked m
  answered : ∀ m, S.outstanding m = 0
  delivered : S.posted = []

structure Still (S : System c) : Prop where
  turn : S.obj.running = none
  answered : ∀ m, S.outstanding m = 0
  delivered : S.posted = []
  done : ∀ i, i.2 < S.obj.issued i.1 → (S.obj.calls i).phase = .done

theorem Accounted.still (h : Accounted S.obj) (hrest : AtRest step Winding S) : Still S := by
  have hrun : S.obj.running = none := by
    by_contra hne
    obtain ⟨i, hi⟩ := Option.ne_none_iff_exists'.mp hne
    have hstuck := hrest (.js .register) trivial
    simp [step, Adapter.step, hi] at hstuck
  refine ⟨hrun, ?_, ?_, ?_⟩
  · intro m
    by_contra hne
    have hstuck := hrest (.answer m .success) trivial
    have hsome : (completion m .success).isSome := by cases m <;> rfl
    simp only [step, Nat.pos_of_ne_zero hne, ↓reduceIte, Option.map_eq_none_iff] at hstuck
    rw [hstuck] at hsome
    cases hsome
  · cases hposted : S.posted with
    | nil => rfl
    | cons n rest =>
      have hstuck := hrest .deliver trivial
      simp [step, hposted, Adapter.step, hrun] at hstuck
  · -- a call that is not over has its next turn enabled
    intro i hi
    cases hp : (S.obj.calls i).phase with
    | unissued => exact absurd hp (h.begun i hi)
    | waiting =>
      have hstuck := hrest (.js (.timer i)) trivial
      simp [step, Adapter.step, hrun, hp] at hstuck
    | passed =>
      have hstuck := hrest (.js (.resume i (.accepted 0))) trivial
      simp [step, Adapter.step, hrun, Obj.resume, hp] at hstuck
    | refused message =>
      have hstuck := hrest (.js (.resume i (.accepted 0))) trivial
      simp [step, Adapter.step, hrun, Obj.resume, hp] at hstuck
    | done => rfl

theorem Wound.rest {issued : Method c → ℕ} (h : Wound issued S) (hrest : AtRest step Winding S) :
    Settled issued S := by
  have hstill := h.accounted.still hrest
  have hgrounded : ∀ i, ¬ S.obj.InFlight i := by
    intro i hi
    rcases h.supplied.due i hi with hout | ⟨n, hn, -⟩
    · rw [hstill.answered] at hout
      exact absurd hout (Nat.lt_irrefl 0)
    · rw [hstill.delivered] at hn
      cases hn
  refine ⟨?_, ?_, hstill.answered, hstill.delivered⟩
  · intro m n hn
    have hended := hstill.done (m, n) (by rw [h.issued]; exact hn)
    exact (h.accounted.ended (m, n) hended).resolve_left (hgrounded (m, n))
  · intro m hm
    obtain ⟨n, hn⟩ := h.supplied.sane.locked m hm
    exact hgrounded (m, n) hn

end Winding

theorem reach_accounted {ok : System c → Action c → Prop} {S : System c}
    (h : Reach step ok (init c) S) : Accounted S.obj := by
  have hboth : Sane S.obj ∧ Accounted S.obj :=
    h.invariant (I := fun S => Sane S.obj ∧ Accounted S.obj) ⟨init_sane, init_accounted⟩
      fun S a T hS _ hs => ⟨step_obj_sane S a T hS.1 hs, step_obj_accounted hS.1 hS.2 hs⟩
  exact hboth.2

/-- However the calls made so far have interleaved, and however their timers,
continuations, answers and events go on to interleave: it takes at most `work`
steps, and it ends with every promise settled and no key locked. -/
theorem promises_settle (S : System c) (h : Reach step Throws (init c) S) :
    (∀ as T, run step Winding S as = some T → as.length ≤ work S) ∧
    (∀ T, Reach step Winding S T → AtRest step Winding T → Settled S.obj.issued T) ∧
    ∃ as T, run step Winding S as = some T ∧ Settled S.obj.issued T :=
  comes_to_rest (I := Wound S.obj.issued)
    (fun _ _ _ hS ha hs => step_wound hS ha hs) (fun _ hT hrest => hT.rest hrest) S
    ⟨reach_supplied h, reach_accounted h, rfl⟩

-- Two logins that have both passed the timer, and one success that was posted
-- before either had registered its listeners.
def loginsRun : List (Action .AgoraRtmSDK) :=
  [.js (.call .login), .js (.call .login), .js (.timer (.login, 0)), .js (.timer (.login, 1)),
    .js (.resume (.login, 0) (.accepted 0)), .answer .login .success]

theorem promises_settle_logins :
    ∃ as T, run step Winding (final step Throws (init .AgoraRtmSDK) loginsRun) as = some T ∧
      Settled (final step Throws (init .AgoraRtmSDK) loginsRun).obj.issued T :=
  (promises_settle _ (reach_final rfl)).2.2

end AgoraRtm.NativeSystem
