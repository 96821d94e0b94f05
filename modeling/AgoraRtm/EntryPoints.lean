import AgoraRtm.NodeApi
import AgoraRtm.Traced
import Mathlib.Algebra.Group.Nat.Defs
import Mathlib.Data.Int.Notation

/-!
# The entry points of the addon

What a call from JavaScript to a controller or channel object does, as a trace
of what it does with C strings, what it allocates and which native methods it
calls. The results of the engine, the allocator and the SDK are parameters, and
so is what an uninitialised local holds. A fault is where the process dies or
the behaviour is undefined.
-/

set_option autoImplicit false

namespace AgoraRtm.EntryPoints
open NodeApi

/-- The native methods with the arguments they are given. A `CharPtr` is a
`NodeString` passed as `char*`; the token of a login may be the constant `NULL`,
here `none`. -/
inductive NativeCall where
  | initialize_ (appId : CharPtr)
  | login (token : Option CharPtr) (userId : CharPtr)
  | logout
  | setLogFile (filePath : CharPtr)
  | setLogFileSize (fileSize : BitVec 32)
  | renewToken (token : CharPtr)
  | createMessage
  | setText (text : CharPtr)
  | sendMessageToPeer (peerId : CharPtr)
  | setParameters (parameters : CharPtr)
  | createChannel (channelId : CharPtr)
  | queryPeersOnlineStatus (peerIds : List Block) (peerCount : BitVec 32)
  | join
  | leave
  | getMembers
  | sendMessage
  | release
  deriving DecidableEq, Repr

inductive Owned where
  | idBuffer
  | handler
  deriving DecidableEq, Repr

inductive Event where
  | toString (p : CharPtr)
  | memcpy (dst : ℕ) (src : CharPtr) (n : ℕ)
  | create (object : Owned)
  | addEventHandler (eventName : List UInt8)
  | call (c : NativeCall)
  deriving DecidableEq, Repr

inductive Fault where
  | nullString
  | nullObject
  | emptyResult
  | outOfBounds
  deriving DecidableEq, Repr

inductive Result where
  | undefined
  | null
  | number (n : ℤ)
  | boolean (b : Bool)
  | channel
  | threw (message : String)
  deriving DecidableEq, Repr

abbrev Run := Traced Event Fault

/-- V8's operations on an array in its heap. `Has` and `Get` may run JavaScript
and change the heap; they are empty where it throws. -/
structure Engine (σ : Type) where
  Length : σ → ℕ → BitVec 32
  Has : σ → ℕ → ℕ → Option (Bool × σ)
  Get : σ → ℕ → ℕ → Option (Value × σ)

/-- What a call finds and gets from others. `calloc` and `beyond` go by the
index of the argument, or of the peer id, that a string comes from. -/
structure Env (σ : Type) where
  engine : Engine σ
  heap : σ
  /-- `ObjectWrap::Unwrap` gives an object. -/
  unwrapped : Bool
  calloc : ℕ → Bool
  /-- What lies in memory after the buffer of a peer id. -/
  beyond : ℕ → ℕ → UInt8
  fileSize : BitVec 32
  requestId : BitVec 64
  status : NativeCall → BitVec 32
  createsMessage : Bool
  createsChannel : Bool
  /-- The request id that the SDK writes, if it does. -/
  assigned : Option (BitVec 64)

variable {σ : Type}

def napi_set_int_result (result : BitVec 32) : Result := .number result.toInt

def napi_set_bool_result (result : Bool) : Result := .boolean result

def intToBool (n : BitVec 32) : Bool := n != 0

def boolToInt (b : Bool) : BitVec 32 := if b then 1 else 0

def MAX_ACCOUNT_LENGTH : ℕ := 64

def arg (args : List Value) (i : ℕ) : Value := args.getD i .undefined

def Env.nodeString (env : Env σ) (i : ℕ) (v : Value) : Run CharPtr :=
  match napi_get_value_nodestring_ (env.calloc i) v none with
  | some (_, p) => pure p
  | none => Traced.fault .outOfBounds

/-- A `std::string` made of a `char*`; of null, its constructor throws. -/
def stdString (p : CharPtr) : Run (List UInt8) := do
  Traced.emit (.toString p)
  match p with
  | some block => return block.takeWhile (· ≠ 0)
  | none => Traced.fault .nullString

def Env.invoke (env : Env σ) (c : NativeCall) : Run (BitVec 32) := do
  if env.unwrapped then
    Traced.emit (.call c)
    return env.status c
  else Traced.fault .nullObject

def forward (env : Env σ) (args : List Value) (call : CharPtr → NativeCall) : Run Result := do
  let p ← env.nodeString 0 (arg args 0)
  let result ← env.invoke (call p)
  return napi_set_int_result result

/-- `initialize`, which is a word of Lean's. -/
def initialize_ (env : Env σ) (args : List Value) : Run Result := forward env args .initialize_

def setLogFile (env : Env σ) (args : List Value) : Run Result := forward env args .setLogFile

def renewToken (env : Env σ) (args : List Value) : Run Result := forward env args .renewToken

def setParameters (env : Env σ) (args : List Value) : Run Result := forward env args .setParameters

/-- The native code goes through a `bool` and comes back as an integer. -/
def login (env : Env σ) (args : List Value) : Run Result := do
  let user_id ← env.nodeString 1 (arg args 1)
  let _mUserId ← stdString user_id
  if arg args 0 = .null then
    let result ← env.invoke (.login none user_id)
    return napi_set_int_result (boolToInt (intToBool result))
  else
    let token ← env.nodeString 0 (arg args 0)
    let result ← env.invoke (.login (some token) user_id)
    return napi_set_int_result (boolToInt (intToBool result))

def logout (env : Env σ) (_args : List Value) : Run Result := do
  let result ← env.invoke .logout
  return napi_set_bool_result (intToBool result)

def setLogFileSize (env : Env σ) (args : List Value) : Run Result := do
  let (_, fileSize) := napi_get_value_int32_ (arg args 0) env.fileSize
  let result ← env.invoke (.setLogFileSize fileSize)
  return napi_set_int_result result

def sendMessageToPeer (env : Env σ) (args : List Value) : Run Result := do
  let peer_id ← env.nodeString 0 (arg args 0)
  let message ← env.nodeString 1 (arg args 1)
  let _rtm_message ← env.invoke .createMessage
  if env.createsMessage then
    Traced.emit (.call (.setText message))
    let result ← env.invoke (.sendMessageToPeer peer_id)
    return napi_set_bool_result (intToBool result)
  else Traced.fault .nullObject

def createChannel (env : Env σ) (args : List Value) : Run Result := do
  let cname ← env.nodeString 0 (arg args 0)
  Traced.emit (.create .handler)
  let _channel ← env.invoke (.createChannel cname)
  return if env.createsChannel then .channel else .null

/-- The bytes that `memcpy` reads from a pointer on, which may lie beyond the
buffer; null cannot be read. -/
def Env.memcpy (env : Env σ) (k : ℕ) (src : CharPtr) (n : ℕ) : Run Block := do
  Traced.emit (.memcpy MAX_ACCOUNT_LENGTH src n)
  match src with
  | some block => return (block ++ (List.range n).map (env.beyond k)).take n
  | none => Traced.fault .nullString

def Env.copyId (env : Env σ) (k : ℕ) (peerId : Value) : Run Block := do
  let sPeerId ← env.nodeString k peerId
  Traced.emit (.create .idBuffer)
  env.memcpy k sPeerId MAX_ACCOUNT_LENGTH

/-- The loop over the indices from `i` on, with `k` ids copied so far. `fuel` is
what is left up to 2^32, which no index reaches. -/
def Env.copyIds (env : Env σ) (array : ℕ) : ℕ → ℕ → ℕ → σ → Run (List Block)
  | 0, _, _, _ => return []
  | fuel+1, i, k, heap =>
    if i < (env.engine.Length heap array).toNat then
      match env.engine.Has heap array i with
      | none => Traced.fault .emptyResult
      | some (false, heap) => env.copyIds array fuel (i+1) k heap
      | some (true, heap) =>
        match env.engine.Get heap array i with
        | none => Traced.fault .emptyResult
        | some (peerId, heap) => do
          let cPeerId ← env.copyId k peerId
          let peerIds ← env.copyIds array fuel (i+1) (k+1) heap
          return cPeerId :: peerIds
    else return []

/-- The code of the query is dropped; the request id is cut to 32 bits. -/
def queryPeersOnlineStatus (env : Env σ) (args : List Value) : Run Result := do
  if args.length < 1 then return .threw "expected 1 argument but received 0"
  match arg args 0 with
  | .array array =>
    if env.unwrapped then
      let length := env.engine.Length env.heap array
      let peerIds ← env.copyIds array (2^32) 0 0 env.heap
      let _result ← env.invoke (.queryPeersOnlineStatus peerIds length)
      let requestId := env.assigned.getD env.requestId
      return napi_set_int_result (requestId.setWidth 32)
    else return .threw "rtm service not intialized"
  | _ => return .threw "expected array argument"

/-- `RtmServerController::onEvent`. A function value gives a callback that is
never empty. -/
def onEvent (env : Env σ) (args : List Value) : Run Result := do
  let eventName ← env.nodeString 0 (arg args 0)
  if arg args 1 = .function then
    let eventName ← stdString eventName
    if env.unwrapped then
      Traced.emit (.addEventHandler eventName)
      return .undefined
    else Traced.fault .nullObject
  else return .undefined

/-- The shape of the channel's methods without arguments: -1 where
`CHECK_NATIVE_THIS` leaves the block. -/
def checked (env : Env σ) (call : NativeCall) : Run Result := do
  if env.unwrapped then
    let result ← env.invoke call
    return napi_set_int_result result
  else return napi_set_int_result (-1)

def join (env : Env σ) (_args : List Value) : Run Result := checked env .join

def leave (env : Env σ) (_args : List Value) : Run Result := checked env .leave

def getMembers (env : Env σ) (_args : List Value) : Run Result := checked env .getMembers

def release (env : Env σ) (_args : List Value) : Run Result := do
  if env.unwrapped then
    let _ ← env.invoke .release
    return napi_set_int_result 0
  else return napi_set_int_result (-1)

def sendMessage (env : Env σ) (args : List Value) : Run Result := do
  let message ← env.nodeString 0 (arg args 0)
  if env.unwrapped then
    let _rtm_message ← env.invoke .createMessage
    if env.createsMessage then
      Traced.emit (.call (.setText message))
      let result ← env.invoke .sendMessage
      return napi_set_int_result result
    else return napi_set_int_result (-1)
  else return napi_set_int_result (-1)

/-- `RtmChannel::onEvent`, which reads the handler through `instance` first. -/
def channelOnEvent (env : Env σ) (args : List Value) : Run Result := do
  let eventName ← env.nodeString 0 (arg args 0)
  if arg args 1 = .function then
    if env.unwrapped then
      let eventName ← stdString eventName
      Traced.emit (.addEventHandler eventName)
      return .undefined
    else Traced.fault .nullObject
  else return .undefined

inductive EntryPoint where
  | initialize_
  | login
  | logout
  | setLogFile
  | setLogFileSize
  | renewToken
  | sendMessageToPeer
  | setParameters
  | createChannel
  | queryPeersOnlineStatus
  | onEvent
  | join
  | leave
  | getMembers
  | release
  | sendMessage
  | channelOnEvent
  deriving DecidableEq, Repr

def EntryPoint.run (env : Env σ) (args : List Value) : EntryPoint → Run Result
  | .initialize_ => EntryPoints.initialize_ env args
  | .login => EntryPoints.login env args
  | .logout => EntryPoints.logout env args
  | .setLogFile => EntryPoints.setLogFile env args
  | .setLogFileSize => EntryPoints.setLogFileSize env args
  | .renewToken => EntryPoints.renewToken env args
  | .sendMessageToPeer => EntryPoints.sendMessageToPeer env args
  | .setParameters => EntryPoints.setParameters env args
  | .createChannel => EntryPoints.createChannel env args
  | .queryPeersOnlineStatus => EntryPoints.queryPeersOnlineStatus env args
  | .onEvent => EntryPoints.onEvent env args
  | .join => EntryPoints.join env args
  | .leave => EntryPoints.leave env args
  | .getMembers => EntryPoints.getMembers env args
  | .release => EntryPoints.release env args
  | .sendMessage => EntryPoints.sendMessage env args
  | .channelOnEvent => EntryPoints.channelOnEvent env args

def fixedArray (elems : List (Option Value)) : Engine Unit where
  Length _ _ := BitVec.ofNat 32 elems.length
  Has _ _ i := some ((elems[i]?.join).isSome, ())
  Get _ _ i := elems[i]?.join.map fun v => (v, ())

def plainEnv (elems : List (Option Value)) : Env Unit where
  engine := fixedArray elems
  heap := ()
  unwrapped := true
  calloc _ := true
  beyond _ _ := 0
  fileSize := 0
  requestId := 0
  status _ := 0
  createsMessage := true
  createsChannel := true
  assigned := some 7

section Steps

variable (env : Env σ)

@[simp] theorem Env.nodeString_eq (i : ℕ) (v : Value) :
    env.nodeString i v = pure (extracted (env.calloc i) v) := by
  obtain ⟨status, h⟩ := nodestring_fresh (env.calloc i) v
  simp only [Env.nodeString, h]

theorem Env.invoke_eq (c : NativeCall) :
    env.invoke c = if env.unwrapped then ⟨[.call c], .ok (env.status c)⟩
      else ⟨[], .error .nullObject⟩ := rfl

@[simp] theorem Env.invoke_result (c : NativeCall) (n : BitVec 32) :
    (env.invoke c).result = .ok n ↔ env.unwrapped = true ∧ env.status c = n := by
  cases hu : env.unwrapped <;> simp [env.invoke_eq, hu]

@[simp] theorem Env.mem_invoke (c : NativeCall) (e : Event) :
    e ∈ (env.invoke c).events ↔ env.unwrapped = true ∧ e = .call c := by
  cases hu : env.unwrapped <;> simp [env.invoke_eq, hu]

@[simp] theorem Env.invoke_holds {P : Event → Prop} (c : NativeCall) :
    Traced.Holds P (env.invoke c) ↔ (env.unwrapped = true → P (.call c)) := by
  cases hu : env.unwrapped <;> simp [env.invoke_eq, hu, Traced.Holds]

theorem stdString_eq (p : CharPtr) :
    stdString p = ⟨[.toString p],
      match p with
      | some block => .ok (block.takeWhile (· ≠ 0))
      | none => .error .nullString⟩ := by
  cases p <;> rfl

@[simp] theorem stdString_holds {P : Event → Prop} (p : CharPtr) :
    Traced.Holds P (stdString p) ↔ P (.toString p) := by
  simp [stdString_eq, Traced.Holds]

@[simp] theorem stdString_result (p : CharPtr) (text : List UInt8) :
    (stdString p).result = .ok text ↔
      ∃ block, p = some block ∧ block.takeWhile (· ≠ 0) = text := by
  cases p <;> simp [stdString_eq]

end Steps

end AgoraRtm.EntryPoints
