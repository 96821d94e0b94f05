import AgoraRtm.EntryPoints

/-!
# Status codes

What the entry points return of the code of the native method they call. It is
returned as it is, but for three methods that are declared boolean: these turn
the code into a `bool`, which is true where the code is an error.
-/

set_option autoImplicit false

namespace AgoraRtm.EntryPoints
open NodeApi

variable {σ : Type}

inductive Declared where
  | number
  | boolean
  deriving DecidableEq, Repr

/-- What `rtm.ts` declares of an entry point that forwards a native status. -/
def EntryPoint.declared : EntryPoint → Option Declared
  | .initialize_ => some .number
  | .login => some .boolean
  | .logout => some .boolean
  | .renewToken => some .number
  | .setLogFile => some .number
  | .setLogFileSize => some .number
  | .sendMessageToPeer => some .boolean
  | .setParameters => some .number
  | .join => some .number
  | .leave => some .number
  | .sendMessage => some .number
  | .getMembers => some .number
  | _ => none

def NativeCall.returnsStatus : NativeCall → Bool
  | .createMessage => false
  | .setText _ => false
  | .createChannel _ => false
  | .release => false
  | _ => true

def Result.truthy : Result → Bool
  | .undefined => false
  | .null => false
  | .number n => n != 0
  | .boolean b => b
  | .channel => true
  | .threw _ => false

/-- The returned value has the meaning of the code: the code itself, or whether
it is success. -/
def Means (c : BitVec 32) (v : Result) : Declared → Prop
  | .number => v = .number c.toInt
  | .boolean => v.truthy = true ↔ c = 0

def EntryPoint.converted : EntryPoint → BitVec 32 → Result
  | .login => fun c => napi_set_int_result (boolToInt (intToBool c))
  | .logout => fun c => napi_set_bool_result (intToBool c)
  | .sendMessageToPeer => fun c => napi_set_bool_result (intToBool c)
  | _ => napi_set_int_result

section Returned

variable {env : Env σ} {args : List Value} {call : NativeCall} {v : Result}

theorem invoke_returned {c : NativeCall} {g : BitVec 32 → Result}
    (hcall : .call call ∈ (g <$> env.invoke c).events)
    (hv : (g <$> env.invoke c).result = .ok v) : v = g (env.status call) := by
  obtain ⟨-, rfl⟩ : env.unwrapped = true ∧ call = c := by simpa using hcall
  have hret : env.unwrapped = true ∧ g (env.status call) = v := by simpa using hv
  exact hret.2.symm

theorem forward_returned {f : CharPtr → NativeCall}
    (hcall : .call call ∈ (forward env args f).events)
    (hv : (forward env args f).result = .ok v) : v = napi_set_int_result (env.status call) := by
  simp only [forward, env.nodeString_eq, pure_bind, bind_pure_comp] at hcall hv
  exact invoke_returned hcall hv

theorem checked_returned {c : NativeCall} (hcall : .call call ∈ (checked env c).events)
    (hv : (checked env c).result = .ok v) : v = napi_set_int_result (env.status call) := by
  cases hu : env.unwrapped with
  | false => simp [checked, hu] at hcall
  | true =>
    simp only [checked, hu, ↓reduceIte, bind_pure_comp] at hcall hv
    exact invoke_returned hcall hv

theorem login_returned (hcall : .call call ∈ (login env args).events)
    (hv : (login env args).result = .ok v) :
    v = napi_set_int_result (boolToInt (intToBool (env.status call))) := by
  simp only [login, env.nodeString_eq, pure_bind, bind_pure_comp] at hcall hv
  obtain ⟨_, hcall, hv⟩ := Traced.bind_tail hv hcall (by simp [stdString_eq])
  by_cases hnull : arg args 0 = .null
  · simp only [hnull, ↓reduceIte] at hcall hv
    exact invoke_returned hcall hv
  · simp only [hnull, ↓reduceIte] at hcall hv
    exact invoke_returned hcall hv

theorem logout_returned (hcall : .call call ∈ (logout env args).events)
    (hv : (logout env args).result = .ok v) :
    v = napi_set_bool_result (intToBool (env.status call)) := by
  simp only [logout, bind_pure_comp] at hcall hv
  exact invoke_returned hcall hv

theorem setLogFileSize_returned (hcall : .call call ∈ (setLogFileSize env args).events)
    (hv : (setLogFileSize env args).result = .ok v) :
    v = napi_set_int_result (env.status call) := by
  simp only [setLogFileSize, bind_pure_comp] at hcall hv
  exact invoke_returned hcall hv

theorem status_not_mem {c : NativeCall} (hstatus : call.returnsStatus = true)
    (hc : c.returnsStatus = false) : Event.call call ∉ (env.invoke c).events := by
  rw [env.mem_invoke]
  rintro ⟨-, hsame⟩
  rw [Event.call.inj hsame, hc] at hstatus
  cases hstatus

theorem setText_not_mem {p : CharPtr} (hstatus : call.returnsStatus = true) :
    Event.call call ∉ (Traced.emit (.call (.setText p)) : Run PUnit).events := by
  rw [Traced.emit_events, List.mem_singleton]
  rintro ⟨⟩
  cases hstatus

theorem sendMessageToPeer_returned (hstatus : call.returnsStatus = true)
    (hcall : .call call ∈ (sendMessageToPeer env args).events)
    (hv : (sendMessageToPeer env args).result = .ok v) :
    v = napi_set_bool_result (intToBool (env.status call)) := by
  simp only [sendMessageToPeer, env.nodeString_eq, pure_bind, bind_pure_comp] at hcall hv
  obtain ⟨_, hcall, hv⟩ := Traced.bind_tail hv hcall (status_not_mem hstatus rfl)
  cases hm : env.createsMessage with
  | false => simp [hm] at hcall
  | true =>
    simp only [hm, ↓reduceIte] at hcall hv
    obtain ⟨_, hcall, hv⟩ := Traced.bind_tail hv hcall (setText_not_mem hstatus)
    exact invoke_returned hcall hv

theorem sendMessage_returned (hstatus : call.returnsStatus = true)
    (hcall : .call call ∈ (sendMessage env args).events)
    (hv : (sendMessage env args).result = .ok v) :
    v = napi_set_int_result (env.status call) := by
  simp only [sendMessage, env.nodeString_eq, pure_bind, bind_pure_comp] at hcall hv
  cases hu : env.unwrapped with
  | false => simp [hu] at hcall
  | true =>
    simp only [hu, ↓reduceIte] at hcall hv
    obtain ⟨_, hcall, hv⟩ := Traced.bind_tail hv hcall (status_not_mem hstatus rfl)
    cases hm : env.createsMessage with
    | false => simp [hm] at hcall
    | true =>
      simp only [hm, ↓reduceIte] at hcall hv
      obtain ⟨_, hcall, hv⟩ := Traced.bind_tail hv hcall (setText_not_mem hstatus)
      exact invoke_returned hcall hv

theorem run_returned {e : EntryPoint} (hd : e.declared ≠ none)
    (hstatus : call.returnsStatus = true) (hcall : .call call ∈ (e.run env args).events)
    (hv : (e.run env args).result = .ok v) : v = e.converted (env.status call) := by
  cases e with
  | initialize_ => exact forward_returned hcall hv
  | setLogFile => exact forward_returned hcall hv
  | renewToken => exact forward_returned hcall hv
  | setParameters => exact forward_returned hcall hv
  | login => exact login_returned hcall hv
  | logout => exact @logout_returned σ env args call v hcall hv
  | setLogFileSize => exact setLogFileSize_returned hcall hv
  | sendMessageToPeer => exact sendMessageToPeer_returned hstatus hcall hv
  | join => exact checked_returned hcall hv
  | leave => exact checked_returned hcall hv
  | getMembers => exact checked_returned hcall hv
  | sendMessage => exact sendMessage_returned hstatus hcall hv
  | _ => exact absurd rfl hd

end Returned

theorem inverted {c : BitVec 32} {v : Result} (h : v.truthy = intToBool c) :
    ¬ Means c v .boolean := by
  intro hmeans
  have hzero : intToBool c = true ↔ c = 0 := h ▸ hmeans
  by_cases hc : c = 0
  · subst hc
    exact absurd (hzero.mpr rfl) (by decide)
  · exact hc (hzero.mp (by simpa [intToBool] using hc))

theorem truthy_boolToInt (b : Bool) : (napi_set_int_result (boolToInt b)).truthy = b := by
  cases b <;> decide

theorem converted_means (e : EntryPoint) (d : Declared) (hd : e.declared = some d)
    (c : BitVec 32) : Means c (e.converted c) d ↔ d = .number := by
  cases d with
  | number =>
    refine iff_of_true ?_ rfl
    cases e <;> first | rfl | cases hd
  | boolean =>
    refine iff_of_false ?_ (by decide)
    cases e with
    | login => exact inverted (truthy_boolToInt _)
    | logout => exact inverted rfl
    | sendMessageToPeer => exact inverted rfl
    | _ => cases hd

/-- A status that an entry point forwards keeps its meaning exactly where the
entry point is declared to return a number. -/
theorem status_forwarded (env : Env σ) (args : List Value) (e : EntryPoint) (d : Declared)
    (hd : e.declared = some d) (call : NativeCall) (v : Result)
    (hstatus : call.returnsStatus = true) (hcall : .call call ∈ (e.run env args).events)
    (hv : (e.run env args).result = .ok v) : Means (env.status call) v d ↔ d = .number := by
  have hret := run_returned (by simp [hd]) hstatus hcall hv
  rw [hret]
  exact converted_means e d hd _

theorem status_forwarded_join :
    Means 4 (.number 4) .number ∧ ¬ Means 0 (.boolean false) .boolean := by
  constructor
  · exact (status_forwarded { plainEnv [] with status := fun _ => 4 } [] .join .number rfl .join
      (.number 4) rfl (by decide) rfl).mpr rfl
  · intro h
    have hnumber := (status_forwarded (plainEnv []) [] .logout .boolean rfl .logout
      (.boolean false) rfl (by decide) rfl).mp h
    cases hnumber

/-- A logout that the native method accepts with 0 returns false. -/
theorem logout_success_false :
    ¬ ∀ (env : Env Unit) (args : List Value) (e : EntryPoint) (d : Declared) (call : NativeCall)
      (v : Result), e.declared = some d → call.returnsStatus = true →
      .call call ∈ (e.run env args).events → (e.run env args).result = .ok v →
      Means (env.status call) v d := by
  intro h
  have hmeans := h (plainEnv []) [] .logout .boolean .logout (.boolean false) rfl rfl (by decide)
    rfl
  exact absurd (hmeans.mpr rfl) (by decide)

end AgoraRtm.EntryPoints
