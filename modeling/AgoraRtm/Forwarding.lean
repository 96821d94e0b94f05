import AgoraRtm.Uninitialised
import AgoraRtm.Delivery

/-!
# From the adapter to the SDK

The adapter's methods put a default in place of an argument that JavaScript
takes for false, and call the addon; four of them do so behind a wait for their
key, and keep the code from the client. What a session of such calls comes to is
said once more without the layers between: which requests end the process, what
the SDK is given and what the client gets.
-/

set_option autoImplicit false

namespace AgoraRtm.Forwarding
open NodeApi EntryPoints

variable {σ : Type}

/-- A value with what `||` can tell and no getter does: that it is a number, or
a BigInt, which counts as false. -/
structure Arg where
  value : Value
  naught : Bool

def Arg.truthy (a : Arg) : Bool :=
  match a.value with
  | .undefined => false
  | .null => false
  | .boolean b => b
  | .int32 n => n != 0
  | .number => !a.naught
  | .string units => units != []
  | .function => true
  | .array _ => true
  | .object => !a.naught

def Arg.or (a : Arg) (default : Value) : Value := if a.truthy then a.value else default

def empty : Value := .string []

def param (args : List Arg) (i : ℕ) : Arg := args.getD i ⟨.undefined, false⟩

def units (name : String) : List UInt16 := name.toList.map fun ch => UInt16.ofNat ch.toNat

def sdkEvents : List String := Delivery.sdkSubscriptions.map Prod.fst

def channelEvents : List String := Delivery.channelSubscriptions.map Prod.fst

def subscribeEvents (onEvent : Env σ → List Value → Run Result) :
    List String → (ℕ → Env σ) → Run Unit
  | [], _ => pure ()
  | name :: names, envs => do
    let _ ← onEvent (envs 0) [.string (units name), .function]
    subscribeEvents onEvent names fun k => envs (k+1)

/-- What the client gets: the value of the call, the new `AgoraRtmSDK`, or a promise,
which is rejected at once or left to the events. -/
inductive Reply where
  | returned (v : Result)
  | sdk
  | refused
  | promised
  deriving DecidableEq, Repr

inductive Crossing where
  | createRtmService
  | call (c : NativeCall)
  | registered (eventName : List UInt8)
  deriving DecidableEq, Repr

def crossing : Event → Option Crossing
  | .call c => some (.call c)
  | .addEventHandler eventName => some (.registered eventName)
  | _ => none

abbrev Handed := Traced Crossing Fault

def pass {α : Type} (x : Run α) : Handed α := Traced.view crossing x

def returned (x : Run Result) : Handed Reply := Reply.returned <$> pass x

/-- A method with a key, from where its `mutex.wait` has ended. The promise of a
refused call is rejected there; of the call that was admitted it waits for an
event, whatever code the addon returns. -/
def guarded (admitted : Bool) (x : Run Result) : Handed Reply :=
  if admitted then do
    let _code ← pass x
    return .promised
  else return .refused

section Methods

variable (env : Env σ) (args : List Arg) (admitted : Bool)

def initialize_ : Run Result := EntryPoints.initialize_ env [(param args 0).value]

def login : Handed Reply :=
  guarded admitted (EntryPoints.login env [(param args 0).value, (param args 1).value])

def logout : Handed Reply := guarded admitted (EntryPoints.logout env [])

def renewToken : Run Result := EntryPoints.renewToken env [(param args 0).or empty]

def setLogFile : Run Result := EntryPoints.setLogFile env [(param args 0).or empty]

def setLogFileSize : Run Result :=
  EntryPoints.setLogFileSize env [(param args 0).or (.int32 1024)]

def sendMessageToPeer : Run Result :=
  EntryPoints.sendMessageToPeer env [(param args 0).or empty, (param args 1).or empty]

def setParameters : Run Result := EntryPoints.setParameters env [(param args 0).or empty]

/-- `literal` is the array that `[]` creates. -/
def queryPeersOnlineStatus (literal : ℕ) : Run Result :=
  EntryPoints.queryPeersOnlineStatus env [(param args 0).or (.array literal)]

def join : Handed Reply := guarded admitted (EntryPoints.join env [])

def leave : Handed Reply := guarded admitted (EntryPoints.leave env [])

def release : Run Result := EntryPoints.release env []

def sendMessage : Run Result := EntryPoints.sendMessage env [(param args 0).or empty]

def getMembers : Run Result := EntryPoints.getMembers env []

end Methods

def constructChannel (envs : ℕ → Env σ) : Run Result := do
  subscribeEvents channelOnEvent channelEvents envs
  return .channel

def createChannel (envs : ℕ → Env σ) (args : List Arg) : Run Result := do
  let result ← EntryPoints.createChannel (envs 0) [(param args 0).or empty]
  if result = .null then return .null
  else constructChannel fun k => envs (k+1)

def logFilter : Block := Utf8.encode (units "\x7b\"rtm.log_filter\": 65535\x7d") ++ [0]

/-- The constructor of `RtmServerController`, which does not test what
`createRtmService` gives. -/
def createInstance (service : Bool) : Handed Unit := do
  Traced.emit .createRtmService
  if service then Traced.emit (.call (.setParameters (some logFilter)))
  else Traced.fault .nullObject

def construct (service : Bool) (envs : ℕ → Env σ) : Handed Reply := do
  createInstance service
  pass (subscribeEvents onEvent sdkEvents envs)
  return .sdk

inductive Method where
  | construct
  | initialize_
  | login
  | logout
  | renewToken
  | setLogFile
  | setLogFileSize
  | sendMessageToPeer
  | createChannel
  | setParameters
  | queryPeersOnlineStatus
  | join
  | leave
  | release
  | sendMessage
  | getMembers
  deriving DecidableEq, Repr

/-- A call of the client with what its calls of the addon find: for a method with a
key also whether its wait lets it through, for a new `AgoraRtmSDK` whether there is
a service for it. -/
structure Request (σ : Type) where
  method : Method
  args : List Arg
  admitted : Bool
  service : Bool
  envs : ℕ → Env σ
  literal : ℕ
  literal_empty : (envs 0).engine.Length (envs 0).heap literal = 0

def Request.run (r : Request σ) : Handed Reply :=
  match r.method with
  | .construct => Forwarding.construct r.service r.envs
  | .initialize_ => returned (Forwarding.initialize_ (r.envs 0) r.args)
  | .login => Forwarding.login (r.envs 0) r.args r.admitted
  | .logout => Forwarding.logout (r.envs 0) r.admitted
  | .renewToken => returned (Forwarding.renewToken (r.envs 0) r.args)
  | .setLogFile => returned (Forwarding.setLogFile (r.envs 0) r.args)
  | .setLogFileSize => returned (Forwarding.setLogFileSize (r.envs 0) r.args)
  | .sendMessageToPeer => returned (Forwarding.sendMessageToPeer (r.envs 0) r.args)
  | .createChannel => returned (Forwarding.createChannel r.envs r.args)
  | .setParameters => returned (Forwarding.setParameters (r.envs 0) r.args)
  | .queryPeersOnlineStatus =>
    returned (Forwarding.queryPeersOnlineStatus (r.envs 0) r.args r.literal)
  | .join => Forwarding.join (r.envs 0) r.admitted
  | .leave => Forwarding.leave (r.envs 0) r.admitted
  | .release => returned (Forwarding.release (r.envs 0))
  | .sendMessage => returned (Forwarding.sendMessage (r.envs 0) r.args)
  | .getMembers => returned (Forwarding.getMembers (r.envs 0))

def session : List (Request σ) → Handed (List Reply)
  | [] => pure []
  | r :: rs => do
    let reply ← r.run
    let replies ← session rs
    return reply :: replies

structure Outcome (ρ : Type) where
  survives : Prop
  crosses : List Crossing
  returns : ρ

def Outcome.returned (o : Outcome Result) : Outcome Reply :=
  ⟨o.survives, o.crosses, .returned o.returns⟩

def registration (name : String) : Crossing :=
  .registered ((Utf8.encode (units name)).takeWhile (· ≠ 0))

example : channelEvents.map registration =
    channelEvents.map fun name => .registered name.toUTF8.toList := by decide +kernel

def Subscribes (names : List String) (envs : ℕ → Env σ) : Prop :=
  ∀ k < names.length, (envs k).calloc 0 = true ∧ (envs k).unwrapped = true

section Specification

variable (r : Request σ)

def Request.text (i : ℕ) : CharPtr := extracted ((r.envs 0).calloc i) (param r.args i).value

def Request.fileSize : BitVec 32 :=
  if (param r.args 0).truthy then
    match (param r.args 0).value with
    | .int32 n => n
    | _ => (r.envs 0).fileSize
  else 1024

def Request.forwards (c : NativeCall) (convert : BitVec 32 → Result) : Outcome Result where
  survives := (r.envs 0).unwrapped = true
  crosses := [.call c]
  returns := convert ((r.envs 0).status c)

def Request.checks (c : NativeCall) : Outcome Result where
  survives := True
  crosses := if (r.envs 0).unwrapped then [.call c] else []
  returns := napi_set_int_result (if (r.envs 0).unwrapped then (r.envs 0).status c else -1)

def Request.guards (survives : Prop) (crosses : List Crossing) : Outcome Reply :=
  if r.admitted then ⟨survives, crosses, .promised⟩ else ⟨True, [], .refused⟩

def Request.elems (array : ℕ) : List Value :=
  ((r.envs 0).engine.present (r.envs 0).heap array).elems

def Request.ids (array : ℕ) : List Block :=
  (r.elems array).mapIdx fun k v =>
    (r.envs 0).copied k ((extracted ((r.envs 0).calloc k) v).getD [])

def Request.requestId : Result :=
  napi_set_int_result (((r.envs 0).assigned.getD (r.envs 0).requestId).setWidth 32)

def Request.queries (array : ℕ) : Outcome Result where
  survives := (r.envs 0).unwrapped = true →
    ((r.envs 0).engine.present (r.envs 0).heap array).done = true ∧
    ∀ (k : ℕ) (v : Value), (r.elems array)[k]? = some v → Given (r.envs 0) k v
  crosses :=
    if (r.envs 0).unwrapped then
      [.call (.queryPeersOnlineStatus (r.ids array)
        ((r.envs 0).engine.Length (r.envs 0).heap array))]
    else []
  returns := if (r.envs 0).unwrapped then r.requestId else .threw "rtm service not intialized"

def Request.logsIn : Outcome Reply :=
  let token := if (param r.args 0).value = .null then none else some (r.text 0)
  r.guards ((r.envs 0).unwrapped = true ∧ Given (r.envs 0) 1 (param r.args 1).value)
    [.call (.login token (r.text 1))]

def Request.sendsToPeer : Outcome Result where
  survives := (r.envs 0).unwrapped = true ∧ (r.envs 0).createsMessage = true
  crosses :=
    [.call .createMessage, .call (.setText (r.text 1)), .call (.sendMessageToPeer (r.text 0))]
  returns := napi_set_bool_result (intToBool ((r.envs 0).status (.sendMessageToPeer (r.text 0))))

def Request.createsChannel : Outcome Result :=
  if (r.envs 0).createsChannel then
    ⟨(r.envs 0).unwrapped = true ∧ Subscribes channelEvents fun k => r.envs (k+1),
      .call (.createChannel (r.text 0)) :: channelEvents.map registration, .channel⟩
  else ⟨(r.envs 0).unwrapped = true, [.call (.createChannel (r.text 0))], .null⟩

def Request.asks : Outcome Result :=
  if (param r.args 0).truthy then
    match (param r.args 0).value with
    | .array array => r.queries array
    | _ => ⟨True, [], .threw "expected array argument"⟩
  else if (r.envs 0).unwrapped then
    ⟨True, [.call (.queryPeersOnlineStatus [] 0)], r.requestId⟩
  else ⟨True, [], .threw "rtm service not intialized"⟩

def Request.releases : Outcome Result :=
  if (r.envs 0).unwrapped then ⟨True, [.call .release], .number 0⟩ else ⟨True, [], .number (-1)⟩

def Request.sends : Outcome Result :=
  if (r.envs 0).unwrapped then
    if (r.envs 0).createsMessage then
      ⟨True, [.call .createMessage, .call (.setText (r.text 0)), .call .sendMessage],
        napi_set_int_result ((r.envs 0).status .sendMessage)⟩
    else ⟨True, [.call .createMessage], .number (-1)⟩
  else ⟨True, [], .number (-1)⟩

def Request.constructs : Outcome Reply where
  survives := r.service = true ∧ Subscribes sdkEvents r.envs
  crosses := [.createRtmService, .call (.setParameters (some logFilter))] ++
    sdkEvents.map registration
  returns := .sdk

/-- A session without its layers: no default, no argument list and no getter. -/
def Request.outcome : Outcome Reply :=
  match r.method with
  | .construct => r.constructs
  | .initialize_ => (r.forwards (.initialize_ (r.text 0)) napi_set_int_result).returned
  | .renewToken => (r.forwards (.renewToken (r.text 0)) napi_set_int_result).returned
  | .setLogFile => (r.forwards (.setLogFile (r.text 0)) napi_set_int_result).returned
  | .setParameters => (r.forwards (.setParameters (r.text 0)) napi_set_int_result).returned
  | .setLogFileSize => (r.forwards (.setLogFileSize r.fileSize) napi_set_int_result).returned
  | .login => r.logsIn
  | .logout => r.guards ((r.envs 0).unwrapped = true) [.call .logout]
  | .sendMessageToPeer => r.sendsToPeer.returned
  | .createChannel => r.createsChannel.returned
  | .queryPeersOnlineStatus => r.asks.returned
  | .join => r.guards True (if (r.envs 0).unwrapped then [.call .join] else [])
  | .leave => r.guards True (if (r.envs 0).unwrapped then [.call .leave] else [])
  | .getMembers => (r.checks .getMembers).returned
  | .release => r.releases.returned
  | .sendMessage => r.sends.returned

end Specification

structure Meets {ρ : Type} (o : Outcome ρ) (x : Handed ρ) : Prop where
  survived : o.survives → x.events = o.crosses ∧ x.result = .ok o.returns
  died : ¬ o.survives → ∃ fault, x.result = .error fault

section Rules

variable {α β : Type}

theorem Meets.ret (v : α) : Meets ⟨True, [], v⟩ (pure v) :=
  ⟨fun _ => ⟨rfl, rfl⟩, fun hdead => absurd trivial hdead⟩

/-- One computation after another: it survives if both do, the second one from what
the first one returns. -/
theorem Meets.bind {o : Outcome α} {o' : Outcome β} {x : Handed α} {f : α → Handed β}
    (hx : Meets o x) (hf : Meets o' (f o.returns)) :
    Meets ⟨o.survives ∧ o'.survives, o.crosses ++ o'.crosses, o'.returns⟩ (x >>= f) := by
  constructor
  · rintro ⟨hfirst, hsecond⟩
    obtain ⟨hcross, hres⟩ := hx.survived hfirst
    obtain ⟨hcross', hres'⟩ := hf.survived hsecond
    rw [Traced.bind_of_ok hres, hcross, hcross']
    exact ⟨rfl, hres'⟩
  · intro hnot
    by_cases hfirst : o.survives
    · obtain ⟨fault, hfault⟩ := hf.died fun hsecond => hnot ⟨hfirst, hsecond⟩
      rw [Traced.bind_of_ok (hx.survived hfirst).2]
      exact ⟨fault, hfault⟩
    · obtain ⟨fault, hfault⟩ := hx.died hfirst
      rw [Traced.bind_of_error hfault]
      exact ⟨fault, rfl⟩

theorem Meets.conseq {o o' : Outcome α} {x : Handed α} (h : Meets o x)
    (hsurvives : o'.survives ↔ o.survives)
    (hsame : o.survives → o'.crosses = o.crosses ∧ o'.returns = o.returns) : Meets o' x := by
  constructor
  · intro halive
    have halive' := hsurvives.mp halive
    obtain ⟨hcross, hret⟩ := hsame halive'
    rw [hcross, hret]
    exact h.survived halive'
  · intro hdead
    exact h.died fun halive => hdead (hsurvives.mpr halive)

theorem pass_bind (x : Run α) (f : α → Run β) :
    pass (x >>= f) = pass x >>= fun a => pass (f a) := Traced.view_bind _ x f

end Rules

section Defaults

theorem default_text (calloc : Bool) (a : Arg) :
    extracted calloc (a.or empty) = extracted calloc a.value := by
  obtain ⟨value, naught⟩ := a
  cases value with
  | string units =>
    cases units with
    | nil => rfl
    | cons u units => rfl
  | boolean b => cases b <;> rfl
  | number => cases naught <;> rfl
  | object => cases naught <;> rfl
  | int32 n =>
    unfold Arg.or
    split <;> rfl
  | _ => rfl

theorem Meets.returned {o : Outcome Result} {x : Run Result} (h : Meets o (pass x)) :
    Meets o.returned (returned x) := by
  rw [Forwarding.returned, ← bind_pure_comp]
  exact Meets.conseq (h.bind (.ret _)) (by simp [Outcome.returned]) (by simp [Outcome.returned])

theorem guarded_meets {survives : Prop} {crosses : List Crossing} {v : Result} (r : Request σ)
    {x : Run Result} (h : Meets ⟨survives, crosses, v⟩ (pass x)) :
    Meets (r.guards survives crosses) (guarded r.admitted x) := by
  unfold Request.guards guarded
  cases r.admitted with
  | false => exact .ret _
  | true => exact Meets.conseq (h.bind (.ret _)) (by simp) (by simp)

end Defaults

section Calls

variable (r : Request σ)

theorem invoke_meets (c : NativeCall) :
    Meets ⟨(r.envs 0).unwrapped = true, [.call c], (r.envs 0).status c⟩
      (pass ((r.envs 0).invoke c)) := by
  rw [Env.invoke_eq]
  constructor
  · intro hu
    rw [if_pos hu]
    exact ⟨rfl, rfl⟩
  · intro hu
    rw [if_neg hu]
    exact ⟨_, rfl⟩

theorem forwards_meets (c : NativeCall) (convert : BitVec 32 → Result) :
    Meets (r.forwards c convert) (pass (do return convert (← (r.envs 0).invoke c))) := by
  rw [pass_bind]
  exact Meets.conseq ((invoke_meets r c).bind (.ret _)) (by simp [Request.forwards])
    (by simp [Request.forwards])

theorem checks_meets (c : NativeCall) : Meets (r.checks c) (pass (checked (r.envs 0) c)) := by
  constructor
  · intro _
    cases hu : (r.envs 0).unwrapped <;> simp only [checked, Request.checks, Env.invoke_eq, hu] <;>
      exact ⟨rfl, rfl⟩
  · intro h
    exact absurd trivial h

theorem forward_meets (v : Value) (hv : extracted ((r.envs 0).calloc 0) v = r.text 0)
    (call : CharPtr → NativeCall) :
    Meets (r.forwards (call (r.text 0)) napi_set_int_result)
      (pass (forward (r.envs 0) [v] call)) := by
  have hforward : forward (r.envs 0) [v] call =
      (do return napi_set_int_result (← (r.envs 0).invoke (call (r.text 0)))) := by
    simp [forward, arg, hv]
  rw [hforward]
  exact forwards_meets r _ _

theorem fileSize_meets : Meets (r.forwards (.setLogFileSize r.fileSize) napi_set_int_result)
    (pass (setLogFileSize (r.envs 0) r.args)) := by
  have hsize : (napi_get_value_int32_ ((param r.args 0).or (.int32 1024)) (r.envs 0).fileSize).2 =
      r.fileSize := by
    unfold Arg.or Request.fileSize
    split
    · cases (param r.args 0).value <;> rfl
    · rfl
  rw [← hsize]
  exact forwards_meets r _ _

theorem login_meets : Meets r.logsIn (login (r.envs 0) r.args r.admitted) := by
  apply guarded_meets r (v := napi_set_int_result (boolToInt (intToBool ((r.envs 0).status
    (.login (if (param r.args 0).value = .null then none else some (r.text 0)) (r.text 1))))))
  have htoken : extracted ((r.envs 0).calloc 0) (param r.args 0).value = r.text 0 := rfl
  have huser : extracted ((r.envs 0).calloc 1) (param r.args 1).value = r.text 1 := rfl
  have hlogin : EntryPoints.login (r.envs 0) [(param r.args 0).value, (param r.args 1).value] = (do
      let _ ← stdString (r.text 1)
      let result ← (r.envs 0).invoke
        (.login (if (param r.args 0).value = .null then none else some (r.text 0)) (r.text 1))
      return napi_set_int_result (boolToInt (intToBool result))) := by
    by_cases hnull : (param r.args 0).value = .null
    · simp [EntryPoints.login, arg, hnull, huser]
    · simp [EntryPoints.login, arg, hnull, htoken, huser]
  rw [hlogin]
  by_cases hgiven : Given (r.envs 0) 1 (param r.args 1).value
  · obtain ⟨block, hblock⟩ := hgiven.extracted
    have htext : r.text 1 = some block := hblock
    constructor
    · rintro ⟨hu, -⟩
      simp only [htext, stdString_eq, Env.invoke_eq, hu]
      exact ⟨rfl, rfl⟩
    · intro hdead
      have hu : ¬ (r.envs 0).unwrapped = true := fun hu => hdead ⟨hu, hgiven⟩
      simp only [htext, stdString_eq, Env.invoke_eq, if_neg hu]
      exact ⟨_, rfl⟩
  · have htext : r.text 1 = none := (extracted_eq_none _ _ _).mpr hgiven
    constructor
    · rintro ⟨-, hg⟩
      exact absurd hg hgiven
    · intro _
      simp only [htext, stdString_eq]
      exact ⟨_, rfl⟩

theorem sendMessageToPeer_meets :
    Meets r.sendsToPeer (pass (sendMessageToPeer (r.envs 0) r.args)) := by
  have hsend : sendMessageToPeer (r.envs 0) r.args = (do
      let _ ← (r.envs 0).invoke .createMessage
      if (r.envs 0).createsMessage then
        Traced.emit (.call (.setText (r.text 1)))
        let result ← (r.envs 0).invoke (.sendMessageToPeer (r.text 0))
        return napi_set_bool_result (intToBool result)
      else Traced.fault .nullObject) := by
    simp [sendMessageToPeer, EntryPoints.sendMessageToPeer, arg, default_text, Request.text]
  rw [hsend]
  constructor
  · rintro ⟨hu, hm⟩
    simp only [Env.invoke_eq, hu, hm]
    exact ⟨rfl, rfl⟩
  · intro hdead
    by_cases hu : (r.envs 0).unwrapped = true
    · have hm : ¬ (r.envs 0).createsMessage = true := fun hm => hdead ⟨hu, hm⟩
      simp only [Env.invoke_eq, if_pos hu, if_neg hm]
      exact ⟨_, rfl⟩
    · simp only [Env.invoke_eq, if_neg hu]
      exact ⟨_, rfl⟩

theorem sendMessage_meets : Meets r.sends (pass (sendMessage (r.envs 0) r.args)) := by
  have htext : extracted ((r.envs 0).calloc 0) ((param r.args 0).or empty) = r.text 0 :=
    default_text _ _
  unfold Request.sends
  constructor
  · intro _
    cases hu : (r.envs 0).unwrapped with
    | false =>
      simp only [sendMessage, EntryPoints.sendMessage, Env.nodeString_eq, pure_bind, hu]
      exact ⟨rfl, rfl⟩
    | true =>
      cases hm : (r.envs 0).createsMessage <;>
        simp only [sendMessage, EntryPoints.sendMessage, arg, List.getD_cons_zero, htext,
          Env.nodeString_eq, pure_bind, Env.invoke_eq, hu, hm] <;>
        exact ⟨rfl, rfl⟩
  · intro hdead
    revert hdead
    split
    · split <;> exact fun hdead => absurd trivial hdead
    · exact fun hdead => absurd trivial hdead

theorem release_meets : Meets r.releases (pass (release (r.envs 0))) := by
  unfold Request.releases
  constructor
  · intro _
    cases hu : (r.envs 0).unwrapped <;>
      simp only [release, EntryPoints.release, Env.invoke_eq, hu] <;> exact ⟨rfl, rfl⟩
  · intro hdead
    revert hdead
    split <;> exact fun hdead => absurd trivial hdead

end Calls

section Subscriptions

def Registers (onEvent : Env σ → List Value → Run Result) : Prop :=
  ∀ (env : Env σ) (name : String), units name ≠ [] →
    Meets ⟨env.calloc 0 = true ∧ env.unwrapped = true, [registration name], .undefined⟩
      (pass (onEvent env [.string (units name), .function]))

theorem name_text {name : String} (hname : units name ≠ []) (calloc : Bool) :
    extracted calloc (.string (units name)) =
      if calloc then some (Utf8.encode (units name) ++ [0]) else none := by
  cases calloc with
  | true => exact (extracted_some _ _ _).mpr ⟨rfl, _, rfl, hname, rfl⟩
  | false =>
    unfold extracted
    split <;> rfl

theorem named_bytes (name : String) :
    (Utf8.encode (units name) ++ [0]).takeWhile (· ≠ 0) =
      (Utf8.encode (units name)).takeWhile (· ≠ 0) := by
  induction Utf8.encode (units name) with
  | nil => rfl
  | cons b bytes ih =>
    by_cases hb : b = 0
    · simp [hb]
    · simpa [hb] using ih

theorem onEvent_registers : Registers (@onEvent σ) := by
  intro env name hname
  cases hc : env.calloc 0 with
  | false =>
    refine ⟨fun h => Bool.noConfusion h.1, fun _ => ⟨.nullString, ?_⟩⟩
    simp only [onEvent, arg, List.getD_cons_zero, List.getD_cons_succ, Env.nodeString_eq,
      name_text hname, hc, pure_bind, stdString_eq]
    rfl
  | true =>
    have hrun : onEvent env [.string (units name), .function] =
        ⟨[.toString (some (Utf8.encode (units name) ++ [0]))] ++
            if env.unwrapped then [.addEventHandler ((Utf8.encode (units name)).takeWhile (· ≠ 0))]
            else [],
          if env.unwrapped then .ok .undefined else .error .nullObject⟩ := by
      simp only [onEvent, arg, List.getD_cons_zero, List.getD_cons_succ, Env.nodeString_eq,
        name_text hname, hc, pure_bind, stdString_eq, ↓reduceIte, named_bytes]
      cases env.unwrapped <;> rfl
    rw [hrun]
    cases env.unwrapped with
    | false => exact ⟨fun h => Bool.noConfusion h.2, fun _ => ⟨_, rfl⟩⟩
    | true => exact ⟨fun _ => ⟨rfl, rfl⟩, fun h => absurd ⟨rfl, rfl⟩ h⟩

theorem channelOnEvent_registers : Registers (@channelOnEvent σ) := by
  intro env name hname
  by_cases hu : env.unwrapped = true
  · have hrun : channelOnEvent env [.string (units name), .function] =
        onEvent env [.string (units name), .function] := by
      simp [channelOnEvent, onEvent, arg, hu]
    rw [hrun]
    exact onEvent_registers env name hname
  · refine ⟨fun h => absurd h.2 hu, fun _ => ⟨.nullObject, ?_⟩⟩
    simp only [channelOnEvent, arg, List.getD_cons_zero, List.getD_cons_succ, Env.nodeString_eq, hu,
      pure_bind]
    rfl

theorem subscribes_cons (name : String) (names : List String) (envs : ℕ → Env σ) :
    Subscribes (name :: names) envs ↔
      ((envs 0).calloc 0 = true ∧ (envs 0).unwrapped = true) ∧
        Subscribes names fun k => envs (k+1) := by
  constructor
  · intro hall
    exact ⟨hall 0 (by simp), fun k hk => hall (k+1) (by simpa using hk)⟩
  · rintro ⟨hfirst, hothers⟩ k hk
    cases k with
    | zero => exact hfirst
    | succ k => exact hothers k (by simpa using hk)

theorem subscribe_meets {onEvent : Env σ → List Value → Run Result} (h : Registers onEvent)
    (names : List String) (hnames : ∀ name ∈ names, units name ≠ []) (envs : ℕ → Env σ) :
    Meets ⟨Subscribes names envs, names.map registration, ()⟩
      (pass (subscribeEvents onEvent names envs)) := by
  induction names generalizing envs with
  | nil => exact Meets.conseq (.ret ()) (by simp [Subscribes]) (by simp)
  | cons name names ih =>
    have hfirst := h (envs 0) name (hnames name (by simp))
    have hrest := ih (fun n hn => hnames n (by simp [hn])) fun k => envs (k+1)
    rw [subscribeEvents, pass_bind]
    exact Meets.conseq (hfirst.bind hrest) (subscribes_cons name names envs) fun _ => ⟨rfl, rfl⟩

theorem sdkEvents_named : ∀ name ∈ sdkEvents, units name ≠ [] := by decide +kernel

theorem channelEvents_named : ∀ name ∈ channelEvents, units name ≠ [] := by decide +kernel

variable (r : Request σ)

theorem createInstance_meets :
    Meets ⟨r.service = true, [.createRtmService, .call (.setParameters (some logFilter))], ()⟩
      (createInstance r.service) := by
  cases r.service with
  | false => exact ⟨fun h => Bool.noConfusion h, fun _ => ⟨.nullObject, rfl⟩⟩
  | true => exact ⟨fun _ => ⟨rfl, rfl⟩, fun hdead => absurd rfl hdead⟩

theorem construct_meets : Meets r.constructs (construct r.service r.envs) := by
  have hsubscribe := subscribe_meets onEvent_registers sdkEvents sdkEvents_named r.envs
  exact Meets.conseq ((createInstance_meets r).bind (hsubscribe.bind (.ret _)))
    (by simp [Request.constructs]) (by simp [Request.constructs])

theorem native_createChannel :
    Meets ⟨(r.envs 0).unwrapped = true, [.call (.createChannel (r.text 0))],
        if (r.envs 0).createsChannel then .channel else .null⟩
      (pass (EntryPoints.createChannel (r.envs 0) [(param r.args 0).or empty])) := by
  have htext : extracted ((r.envs 0).calloc 0) ((param r.args 0).or empty) = r.text 0 :=
    default_text _ _
  simp only [EntryPoints.createChannel, arg, List.getD_cons_zero, htext, Env.nodeString_eq,
    pure_bind, Env.invoke_eq]
  constructor
  · intro hu
    rw [if_pos hu]
    exact ⟨rfl, rfl⟩
  · intro hu
    rw [if_neg hu]
    exact ⟨_, rfl⟩

theorem constructChannel_meets (envs : ℕ → Env σ) :
    Meets ⟨Subscribes channelEvents envs, channelEvents.map registration, .channel⟩
      (pass (constructChannel envs)) := by
  have hsubscribe := subscribe_meets channelOnEvent_registers channelEvents channelEvents_named envs
  rw [constructChannel, pass_bind]
  exact Meets.conseq (hsubscribe.bind (.ret _)) (by simp) (by simp)

theorem createChannel_meets : Meets r.createsChannel (pass (createChannel r.envs r.args)) := by
  have hnative := native_createChannel r
  rw [createChannel, pass_bind]
  cases hc : (r.envs 0).createsChannel with
  | true =>
    rw [hc] at hnative
    exact Meets.conseq (hnative.bind (constructChannel_meets fun k => r.envs (k+1)))
      (by simp [Request.createsChannel, hc]) (by simp [Request.createsChannel, hc])
  | false =>
    rw [hc] at hnative
    exact Meets.conseq (hnative.bind (.ret Result.null)) (by simp [Request.createsChannel, hc])
      (by simp [Request.createsChannel, hc])

end Subscriptions

section Queries

theorem reading_empty {engine : Engine σ} {heap : σ} {array : ℕ}
    (h : engine.Length heap array = 0) (fuel : ℕ) :
    engine.reading array fuel 0 heap = ⟨[], true⟩ := by
  cases fuel with
  | zero => rfl
  | succ fuel => simp [Engine.reading, h]

theorem copies_ids {env : Env σ} {k : ℕ} {ids : List Block} {elems : List Value}
    (h : Copies env k ids elems) :
    ids = elems.mapIdx fun j v =>
      env.copied (k+j) ((extracted (env.calloc (k+j)) v).getD []) := by
  induction h with
  | nil => rfl
  | @cons k v block ids elems hv hrest ih =>
    have hnext : ∀ j, k+1+j = k+(j+1) := fun j => by omega
    rw [List.mapIdx_cons, ih]
    simp [hv, hnext]

theorem copyAll_silent {env : Env σ} (done : Bool) (elems : List Value) (k : ℕ) :
    (pass (env.copyAll done k elems)).events = [] := by
  apply List.filterMap_eq_nil_iff.mpr
  intro e he
  rcases copyAll_event he with rfl | ⟨src, rfl⟩ <;> rfl

variable (r : Request σ)

theorem copyAll_meets (array : ℕ) :
    Meets ⟨((r.envs 0).engine.present (r.envs 0).heap array).done = true ∧
        ∀ (k : ℕ) (v : Value), (r.elems array)[k]? = some v → Given (r.envs 0) k v,
        [], r.ids array⟩
      (pass ((r.envs 0).copyAll ((r.envs 0).engine.present (r.envs 0).heap array).done 0
        ((r.envs 0).engine.present (r.envs 0).heap array).elems)) := by
  constructor
  · rintro ⟨hdone, hgiven⟩
    obtain ⟨ids, hcopies⟩ : ∃ ids, Copies (r.envs 0) 0 ids (r.elems array) := by
      apply copies_exist
      intro j v hj
      rw [Nat.zero_add]
      exact (hgiven j v hj).extracted
    have hids : ids = r.ids array := by simpa [Request.ids] using copies_ids hcopies
    refine ⟨copyAll_silent _ _ 0, ?_⟩
    rw [← hids]
    exact (copyAll_ok _ _ 0 ids).mpr ⟨hdone, hcopies⟩
  · intro hread
    cases hres : (pass ((r.envs 0).copyAll
        ((r.envs 0).engine.present (r.envs 0).heap array).done 0
        ((r.envs 0).engine.present (r.envs 0).heap array).elems)).result with
    | ok ids =>
      obtain ⟨hdone, hcopies⟩ := (copyAll_ok _ _ 0 ids).mp hres
      refine absurd ⟨hdone, ?_⟩ hread
      intro k v hk
      obtain ⟨buffer, hb, -⟩ := hcopies.get k v hk
      rw [Nat.zero_add] at hb
      by_contra hnot
      rw [(extracted_eq_none _ _ _).mpr hnot] at hb
      cases hb
    | error fault => exact ⟨fault, rfl⟩

theorem queries_meets (array : ℕ) :
    Meets (r.queries array)
      (pass (EntryPoints.queryPeersOnlineStatus (r.envs 0) [.array array])) := by
  by_cases hu : (r.envs 0).unwrapped = true
  · have harg : arg [.array array] 0 = .array array := rfl
    have hcall : ∀ ids, Meets ⟨True, [.call (.queryPeersOnlineStatus ids
          ((r.envs 0).engine.Length (r.envs 0).heap array))], r.requestId⟩
        (pass (do
          Traced.emit (.call (.queryPeersOnlineStatus ids
            ((r.envs 0).engine.Length (r.envs 0).heap array)))
          return r.requestId)) :=
      fun ids => ⟨fun _ => ⟨rfl, rfl⟩, fun hdead => absurd trivial hdead⟩
    rw [query_eq harg hu, pass_bind]
    exact Meets.conseq ((copyAll_meets r array).bind (hcall _)) (by simp [Request.queries, hu])
      (by simp [Request.queries, hu])
  · constructor
    · intro _
      simp only [EntryPoints.queryPeersOnlineStatus, arg, Request.queries, hu]
      exact ⟨rfl, rfl⟩
    · intro hnot
      exact absurd (fun hlive => absurd hlive hu) hnot

theorem query_meets :
    Meets r.asks (pass (queryPeersOnlineStatus (r.envs 0) r.args r.literal)) := by
  unfold queryPeersOnlineStatus Arg.or Request.asks
  by_cases ht : (param r.args 0).truthy = true
  · simp only [ht, ↓reduceIte]
    cases hv : (param r.args 0).value with
    | array array => exact queries_meets r array
    | _ => exact ⟨fun _ => ⟨rfl, rfl⟩, fun hnot => absurd trivial hnot⟩
  · simp only [ht, Bool.false_eq_true, ↓reduceIte]
    have hread : (r.envs 0).engine.present (r.envs 0).heap r.literal = ⟨[], true⟩ :=
      reading_empty r.literal_empty _
    have hsame : (if (r.envs 0).unwrapped then
          (⟨True, [.call (.queryPeersOnlineStatus [] 0)], r.requestId⟩ : Outcome Result)
        else ⟨True, [], .threw "rtm service not intialized"⟩) = r.queries r.literal := by
      cases hu : (r.envs 0).unwrapped <;>
        simp [Request.queries, Request.ids, Request.elems, hread, hu, r.literal_empty]
    rw [hsame]
    exact queries_meets r r.literal

end Queries

/-- Each method keeps to the specification. -/
theorem run_meets (r : Request σ) : Meets r.outcome r.run := by
  unfold Request.run Request.outcome
  cases r.method with
  | construct => exact construct_meets r
  | login => exact login_meets r
  | logout => exact guarded_meets r (forwards_meets r .logout fun code =>
      napi_set_bool_result (intToBool code))
  | join => exact guarded_meets r (checks_meets r .join)
  | leave => exact guarded_meets r (checks_meets r .leave)
  | getMembers => exact (checks_meets r .getMembers).returned
  | sendMessageToPeer => exact (sendMessageToPeer_meets r).returned
  | createChannel => exact (createChannel_meets r).returned
  | queryPeersOnlineStatus => exact (query_meets r).returned
  | release => exact (release_meets r).returned
  | sendMessage => exact (sendMessage_meets r).returned
  | setLogFileSize => exact (fileSize_meets r).returned
  | initialize_ => exact (forward_meets r _ rfl _).returned
  | _ => exact (forward_meets r _ (default_text _ _) _).returned

/-- A session survives if its requests do, and comes to the sum of what they
come to. -/
theorem session_outcome (rs : List (Request σ)) :
    Meets ⟨∀ r ∈ rs, r.outcome.survives, rs.flatMap fun r => r.outcome.crosses,
      rs.map fun r => r.outcome.returns⟩ (session rs) := by
  induction rs with
  | nil => exact Meets.conseq (.ret []) (by simp) (by simp)
  | cons r rs ih =>
    exact Meets.conseq ((run_meets r).bind (ih.bind (.ret _))) (by simp) (by simp)

/-- The objects are there, and so is memory, and a service or a message where one is
asked for. -/
def Request.Provided (r : Request σ) : Prop :=
  r.service = true ∧ ∀ k, (r.envs k).unwrapped = true ∧ (∀ i, (r.envs k).calloc i = true) ∧
    (r.envs k).createsMessage = true

def Text (v : Value) : Prop := ∃ units, v = .string units ∧ units ≠ []

/-- The account of a login that is let through is a text, and so is each peer id of
an array that can be read. -/
def Request.Sound (r : Request σ) : Prop :=
  (r.method = .login → r.admitted = true → Text (param r.args 1).value) ∧
  (r.method = .queryPeersOnlineStatus → ∀ array, (param r.args 0).value = .array array →
    ((r.envs 0).engine.present (r.envs 0).heap array).done = true ∧
    ∀ v ∈ r.elems array, Text v)

theorem given_text {env : Env σ} {k : ℕ} (h : env.calloc k = true) (v : Value) :
    Given env k v ↔ Text v := by
  simp [Given, Text, h]

theorem provided_query {r : Request σ} (h : r.Provided) (array : ℕ) :
    (r.queries array).survives ↔
      ((r.envs 0).engine.present (r.envs 0).heap array).done = true ∧
      ∀ v ∈ r.elems array, Text v := by
  obtain ⟨hu, hcalloc, -⟩ := h.2 0
  simp only [Request.queries, hu, given_text (hcalloc _), List.mem_iff_getElem?, true_implies]
  constructor
  · rintro ⟨hdone, hall⟩
    exact ⟨hdone, fun v ⟨k, hk⟩ => hall k v hk⟩
  · rintro ⟨hdone, hall⟩
    exact ⟨hdone, fun k v hk => hall v ⟨k, hk⟩⟩

theorem guards_survives (r : Request σ) (survives : Prop) (crosses : List Crossing) :
    (r.guards survives crosses).survives ↔ (r.admitted = true → survives) := by
  unfold Request.guards
  cases r.admitted <;> simp

theorem provided_survives {r : Request σ} (h : r.Provided) :
    r.outcome.survives ↔ r.Sound := by
  obtain ⟨hu, hcalloc, hmessage⟩ := h.2 0
  cases hm : r.method with
  | login =>
    simp [Request.outcome, Request.logsIn, guards_survives, Request.Sound, hm, hu,
      given_text (hcalloc 1)]
  | queryPeersOnlineStatus =>
    by_cases harray : ∃ array, (param r.args 0).value = .array array
    · obtain ⟨array, ha⟩ := harray
      have htruthy : (param r.args 0).truthy = true := by simp [Arg.truthy, ha]
      have hquery := provided_query h array
      simpa [Request.outcome, Outcome.returned, Request.asks, Request.Sound, hm, htruthy, ha]
        using hquery
    · have hno : ∀ array, (param r.args 0).value ≠ .array array := by simpa using harray
      refine iff_of_true ?_ (by simp [Request.Sound, hm, hno])
      simp only [Request.outcome, hm, Outcome.returned, Request.asks, hu, ↓reduceIte]
      split <;> trivial
  | construct =>
    refine iff_of_true ?_ (by simp [Request.Sound, hm])
    simp only [Request.outcome, hm]
    exact ⟨h.1, fun k _ => ⟨(h.2 k).2.1 0, (h.2 k).1⟩⟩
  | createChannel =>
    refine iff_of_true ?_ (by simp [Request.Sound, hm])
    simp only [Request.outcome, hm, Outcome.returned, Request.createsChannel]
    split
    · exact ⟨hu, fun k _ => ⟨(h.2 (k+1)).2.1 0, (h.2 (k+1)).1⟩⟩
    · exact hu
  | _ =>
    refine iff_of_true ?_ (by simp [Request.Sound, hm])
    simp [Request.outcome, Outcome.returned, Request.forwards, Request.checks, guards_survives,
      Request.sendsToPeer, Request.releases, Request.sends, hm, hu, hmessage]

/-- A session of the client, of any length and with arguments of any kind, ends
the process exactly where a request does, and otherwise the SDK is given and the
client gets what the specification says. With the objects, memory and messages
there, only the account of a login and the ids of a query matter. -/
theorem session_meets (rs : List (Request σ)) :
    ((∃ replies, (session rs).result = .ok replies) ↔ ∀ r ∈ rs, r.outcome.survives) ∧
    (∀ replies, (session rs).result = .ok replies →
      (session rs).events = rs.flatMap (fun r => r.outcome.crosses) ∧
      replies = rs.map fun r => r.outcome.returns) ∧
    ((∀ r ∈ rs, r.Provided) → ((∃ replies, (session rs).result = .ok replies) ↔
      ∀ r ∈ rs, r.Sound)) := by
  have hmeets := session_outcome rs
  have hsurvives : (∃ replies, (session rs).result = .ok replies) ↔
      ∀ r ∈ rs, r.outcome.survives := by
    constructor
    · rintro ⟨replies, hres⟩
      by_contra hnot
      obtain ⟨fault, hfault⟩ := hmeets.died hnot
      rw [hres] at hfault
      cases hfault
    · intro hall
      exact ⟨_, (hmeets.survived hall).2⟩
  refine ⟨hsurvives, ?_, ?_⟩
  · intro replies hres
    obtain ⟨hcross, hreplies⟩ := hmeets.survived (hsurvives.mp ⟨replies, hres⟩)
    rw [hres] at hreplies
    exact ⟨hcross, Except.ok.inj hreplies⟩
  · intro hprovided
    rw [hsurvives]
    exact forall₂_congr fun r hr => provided_survives (hprovided r hr)

def text (name : String) : Arg := ⟨.string (units name), false⟩

def plainRequest (method : Method) (args : List Arg) : Request Unit :=
  ⟨method, args, true, true, fun _ => plainEnv [], 0, rfl⟩

-- A renewal without a token, a size that is no number, and a query of nobody.
def defaultsSession : List (Request Unit) :=
  [plainRequest .initialize_ [text "id"], plainRequest .renewToken [],
    plainRequest .setLogFileSize [text ""], plainRequest .queryPeersOnlineStatus []]

theorem session_meets_defaults :
    (∃ replies, (session defaultsSession).result = .ok replies) ∧
    ¬ ∃ replies, (session (defaultsSession ++ [plainRequest .login []])).result = .ok replies := by
  have hprovided : ∀ method args, (plainRequest method args).Provided :=
    fun method args => ⟨rfl, fun k => ⟨rfl, fun _ => rfl, rfl⟩⟩
  constructor
  · refine ((session_meets defaultsSession).2.2 ?_).mpr ?_
    · simp [defaultsSession, hprovided]
    · simp [defaultsSession, Request.Sound, plainRequest, param]
  · rw [(session_meets _).2.2 (by simp [defaultsSession, hprovided])]
    simp [defaultsSession, Request.Sound, plainRequest, param, Text]

example : (session defaultsSession).events =
    [.call (.initialize_ (some [105, 100, 0])), .call (.renewToken none),
      .call (.setLogFileSize 1024), .call (.queryPeersOnlineStatus [] 0)] := by decide

end AgoraRtm.Forwarding
