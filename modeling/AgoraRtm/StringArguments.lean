import AgoraRtm.PeerQuery

/-!
# Strings from arguments

What the getter of strings reports, and where a null pointer that it has left in
a `NodeString` is used. It reports `napi_ok` for what is no string and for the
empty string, and nobody asks it; so the entry points use null wherever the
argument gives no text.
-/

set_option autoImplicit false

namespace AgoraRtm.EntryPoints
open NodeApi

variable {σ : Type}

def HoldsText (str : Value) (p : CharPtr) : Prop :=
  ∃ text block, str.text = some text ∧ p = some block ∧ text ++ [0] <+: block

/-- The getter returns `napi_ok` only with the text. -/
def Honest (calloc : Bool) (str : Value) (nodechar : CharPtr) : Prop :=
  ∃ status p, napi_get_value_nodestring_ calloc str nodechar = some (status, p) ∧
    (status = .napi_ok → HoldsText str p)

theorem honest_iff (calloc : Bool) (str : Value) (nodechar : CharPtr) :
    Honest calloc str nodechar ↔
      (∃ units, str = .string units ∧ units ≠ []) ∨ HoldsText str nodechar := by
  by_cases h : ∃ units, str = .string units ∧ units ≠ []
  · obtain ⟨units, rfl, hne⟩ := h
    refine iff_of_true ?_ (Or.inl ⟨units, rfl, hne⟩)
    rw [Honest, nodestring_text calloc units hne]
    cases calloc with
    | true => exact ⟨_, _, rfl, fun _ => ⟨_, _, rfl, rfl, List.prefix_refl _⟩⟩
    | false => exact ⟨_, _, rfl, fun hok => by cases hok⟩
  · have htextless : ∀ units, str = .string units → units = [] := by
      intro units hstr
      by_contra hne
      exact h ⟨units, hstr, hne⟩
    rw [Honest, nodestring_textless calloc str nodechar htextless]
    simp [h]

def NativeCall.strings : NativeCall → List CharPtr
  | .initialize_ appId => [appId]
  | .login token userId => token.toList ++ [userId]
  | .setLogFile filePath => [filePath]
  | .renewToken token => [token]
  | .setText text => [text]
  | .sendMessageToPeer peerId => [peerId]
  | .setParameters parameters => [parameters]
  | .createChannel channelId => [channelId]
  | _ => []

def Event.strings : Event → List CharPtr
  | .toString p => [p]
  | .memcpy _ src _ => [src]
  | .call c => c.strings
  | _ => []

def NoNull (e : Event) : Prop := ∀ p ∈ e.strings, p ≠ none

@[simp] theorem noNull_toString (p : CharPtr) : NoNull (.toString p) ↔ p ≠ none := by
  simp [NoNull, Event.strings]

@[simp] theorem noNull_memcpy (dst n : ℕ) (src : CharPtr) :
    NoNull (.memcpy dst src n) ↔ src ≠ none := by
  simp [NoNull, Event.strings]

@[simp] theorem noNull_create (object : Owned) : NoNull (.create object) := by
  simp [NoNull, Event.strings]

@[simp] theorem noNull_addEventHandler (name : List UInt8) : NoNull (.addEventHandler name) := by
  simp [NoNull, Event.strings]

@[simp] theorem noNull_call (c : NativeCall) : NoNull (.call c) ↔ ∀ p ∈ c.strings, p ≠ none :=
  Iff.rfl

def Given (env : Env σ) (i : ℕ) (v : Value) : Prop :=
  env.calloc i = true ∧ ∃ units, v = .string units ∧ units ≠ []

@[simp] theorem extracted_eq_none (env : Env σ) (i : ℕ) (v : Value) :
    extracted (env.calloc i) v = none ↔ ¬ Given env i v := by
  rw [Option.eq_none_iff_forall_ne_some]
  constructor
  · rintro h ⟨hc, units, hv, hne⟩
    exact h _ ((extracted_some _ _ _).mpr ⟨hc, units, hv, hne, rfl⟩)
  · intro h block hb
    obtain ⟨hc, units, hv, hne, -⟩ := (extracted_some _ _ _).mp hb
    exact h ⟨hc, units, hv, hne⟩

theorem Given.extracted {env : Env σ} {i : ℕ} {v : Value} (h : Given env i v) :
    ∃ block, extracted (env.calloc i) v = some block := by
  apply Option.ne_none_iff_exists'.mp
  rw [Ne, extracted_eq_none]
  exact not_not.mpr h

/-- Each string argument that is used on the way the call takes is given; for
the token of a login, null counts as given. -/
def StringsGiven (env : Env σ) (args : List Value) : EntryPoint → Prop
  | .initialize_ => env.unwrapped = true → Given env 0 (arg args 0)
  | .setLogFile => env.unwrapped = true → Given env 0 (arg args 0)
  | .renewToken => env.unwrapped = true → Given env 0 (arg args 0)
  | .setParameters => env.unwrapped = true → Given env 0 (arg args 0)
  | .createChannel => env.unwrapped = true → Given env 0 (arg args 0)
  | .login => Given env 1 (arg args 1) ∧
      (env.unwrapped = true → arg args 0 = .null ∨ Given env 0 (arg args 0))
  | .sendMessageToPeer => env.unwrapped = true → env.createsMessage = true →
      Given env 0 (arg args 0) ∧ Given env 1 (arg args 1)
  | .queryPeersOnlineStatus => ∀ array, arg args 0 = .array array → env.unwrapped = true →
      ∀ (k : ℕ) (v : Value), (env.engine.present env.heap array).elems[k]? = some v →
        Given env k v
  | .onEvent => arg args 1 = .function → Given env 0 (arg args 0)
  | .channelOnEvent => arg args 1 = .function → env.unwrapped = true → Given env 0 (arg args 0)
  | .sendMessage => env.unwrapped = true → env.createsMessage = true → Given env 0 (arg args 0)
  | .logout => True
  | .setLogFileSize => True
  | .join => True
  | .leave => True
  | .getMembers => True
  | .release => True

section EntryPoints

variable (env : Env σ) (args : List Value)

theorem forward_noNull (call : CharPtr → NativeCall) (hcall : ∀ p, (call p).strings = [p]) :
    Traced.Holds NoNull (forward env args call) ↔
      (env.unwrapped = true → Given env 0 (arg args 0)) := by
  simp [forward, hcall]

theorem login_noNull : Traced.Holds NoNull (login env args) ↔ StringsGiven env args .login := by
  by_cases huser : Given env 1 (arg args 1)
  · obtain ⟨block, hblock⟩ := huser.extracted
    by_cases hnull : arg args 0 = .null
    · simp [login, NativeCall.strings, StringsGiven, hnull, hblock, huser]
    · simp [login, NativeCall.strings, StringsGiven, hnull, hblock, huser]
  · simp [login, StringsGiven, huser]

theorem sendMessageToPeer_noNull :
    Traced.Holds NoNull (sendMessageToPeer env args) ↔
      StringsGiven env args .sendMessageToPeer := by
  cases hu : env.unwrapped with
  | false => simp [sendMessageToPeer, StringsGiven, hu]
  | true =>
    cases hm : env.createsMessage <;>
      simp [sendMessageToPeer, NativeCall.strings, StringsGiven, hu, hm, and_comm]

theorem createChannel_noNull :
    Traced.Holds NoNull (createChannel env args) ↔ StringsGiven env args .createChannel := by
  simp [createChannel, NativeCall.strings, StringsGiven]

theorem query_noNull :
    Traced.Holds NoNull (queryPeersOnlineStatus env args) ↔
      StringsGiven env args .queryPeersOnlineStatus := by
  by_cases harray : ∃ array, arg args 0 = .array array
  · obtain ⟨array, ha⟩ := harray
    cases hu : env.unwrapped with
    | false => simp [Traced.Holds, query_no_object ha hu, StringsGiven, hu]
    | true =>
      have hnull : ¬ NoNull (.memcpy MAX_ACCOUNT_LENGTH none MAX_ACCOUNT_LENGTH) := by simp
      rw [query_memcpy ha hu (noNull_create _) (by simp [NativeCall.strings]) hnull]
      simp [StringsGiven, ha, hu]
  · have hno : ∀ array, arg args 0 ≠ .array array := fun array ha => harray ⟨array, ha⟩
    simp [Traced.Holds, query_no_array hno, StringsGiven, hno]

theorem onEvent_noNull :
    Traced.Holds NoNull (onEvent env args) ↔ StringsGiven env args .onEvent := by
  by_cases hf : arg args 1 = .function
  · cases hu : env.unwrapped <;> simp [onEvent, StringsGiven, hf, hu]
  · simp [onEvent, StringsGiven, hf]

theorem channelOnEvent_noNull :
    Traced.Holds NoNull (channelOnEvent env args) ↔ StringsGiven env args .channelOnEvent := by
  by_cases hf : arg args 1 = .function
  · cases hu : env.unwrapped <;> simp [channelOnEvent, StringsGiven, hf, hu]
  · simp [channelOnEvent, StringsGiven, hf]

theorem sendMessage_noNull :
    Traced.Holds NoNull (sendMessage env args) ↔ StringsGiven env args .sendMessage := by
  cases hu : env.unwrapped with
  | false => simp [sendMessage, StringsGiven, hu]
  | true =>
    cases hm : env.createsMessage <;>
      simp [sendMessage, NativeCall.strings, StringsGiven, hu, hm]

theorem checked_noNull (call : NativeCall) (hcall : call.strings = []) :
    Traced.Holds NoNull (checked env call) := by
  cases hu : env.unwrapped <;> simp [checked, hcall, hu]

/-- An entry point uses a null pointer for a string of the caller's exactly where
a string argument that it uses is not given. -/
theorem run_noNull (e : EntryPoint) :
    Traced.Holds NoNull (e.run env args) ↔ StringsGiven env args e := by
  cases e with
  | initialize_ => exact forward_noNull env args _ fun _ => rfl
  | setLogFile => exact forward_noNull env args _ fun _ => rfl
  | renewToken => exact forward_noNull env args _ fun _ => rfl
  | setParameters => exact forward_noNull env args _ fun _ => rfl
  | login => exact login_noNull env args
  | sendMessageToPeer => exact sendMessageToPeer_noNull env args
  | createChannel => exact createChannel_noNull env args
  | queryPeersOnlineStatus => exact query_noNull env args
  | onEvent => exact onEvent_noNull env args
  | channelOnEvent => exact channelOnEvent_noNull env args
  | sendMessage => exact sendMessage_noNull env args
  | join => exact iff_of_true (checked_noNull env _ rfl) trivial
  | leave => exact iff_of_true (checked_noNull env _ rfl) trivial
  | getMembers => exact iff_of_true (checked_noNull env _ rfl) trivial
  | logout =>
    refine iff_of_true ?_ trivial
    simp [EntryPoint.run, logout, NativeCall.strings]
  | setLogFileSize =>
    refine iff_of_true ?_ trivial
    simp [EntryPoint.run, setLogFileSize, NativeCall.strings]
  | release =>
    refine iff_of_true ?_ trivial
    cases hu : env.unwrapped <;>
      simp [EntryPoint.run, release, NativeCall.strings, hu]

end EntryPoints

/-- The getter is honest exactly about strings with text (and where the text was
there before); a call uses no null pointer for a string of the caller's exactly
where the strings that it uses are given. -/
theorem string_extraction (calloc : Bool) (str : Value) (nodechar : CharPtr) (env : Env σ)
    (args : List Value) (e : EntryPoint) :
    (Honest calloc str nodechar ↔
      (∃ units, str = .string units ∧ units ≠ []) ∨ HoldsText str nodechar) ∧
    (Traced.Holds NoNull (e.run env args) ↔ StringsGiven env args e) :=
  ⟨honest_iff calloc str nodechar, run_noNull env args e⟩

/-- A number and the empty string are reported as extracted, and a null pointer
is passed on as the token. -/
theorem renewToken_of_number :
    ¬ Honest true (.int32 7) none ∧ ¬ Honest true (.string []) none ∧
    ¬ Traced.Holds NoNull (EntryPoint.renewToken.run (plainEnv []) [.int32 7]) := by
  refine ⟨?_, ?_, ?_⟩
  · rintro ⟨status, p, hget, htext⟩
    obtain ⟨rfl, rfl⟩ : .napi_ok = status ∧ none = p := by simpa using Option.some.inj hget
    obtain ⟨text, block, hnone, -⟩ := htext rfl
    cases hnone
  · rintro ⟨status, p, hget, htext⟩
    obtain ⟨rfl, rfl⟩ : .napi_ok = status ∧ none = p := by simpa using Option.some.inj hget
    obtain ⟨text, block, -, hnull, -⟩ := htext rfl
    cases hnull
  · intro h
    exact h (.call (.renewToken none)) (by decide) none (by decide) rfl

end AgoraRtm.EntryPoints
