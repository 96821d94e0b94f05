import AgoraRtm.Utf8
import Mathlib.Algebra.Group.Nat.Defs
import Mathlib.Data.Int.Notation

/-!
# Native callbacks and the tasks they post

The SDK calls a handler on one of its own threads with values and with pointers
into its own memory. The handler captures what its lambda needs and posts the
lambda to the loop thread, which builds the arguments of the JavaScript call
from what was captured. Between the two the SDK may rewrite or free its memory.
-/

set_option autoImplicit false

namespace AgoraRtm.NativeEvents

inductive Scalar where
  | number (n : ℤ)
  | string (units : List UInt16)
  deriving DecidableEq, Repr

inductive JsValue where
  | scalar (v : Scalar)
  | array (elems : List Scalar)
  | records (elems : List (List (String × Scalar)))
  deriving DecidableEq, Repr

def roundToDouble (n : ℕ) : ℕ :=
  let unit := 2^(Nat.log2 n-52)
  if n < 2^53 then n
  else if 2*(n%unit) > unit ∨ (2*(n%unit) = unit ∧ n/unit%2 = 1) then (n/unit+1)*unit
  else n/unit*unit

def doubleOfInt (n : ℤ) : ℤ := if 0 ≤ n then roundToDouble n.toNat else -roundToDouble (-n).toNat

def napi_create_int32_ (value : BitVec 32) : Scalar := .number value.toInt

def napi_create_uint64_ (value : BitVec 64) : Scalar := .number (doubleOfInt value.toNat)

def napi_create_string_ (value : List UInt8) : Scalar := .string (Utf8.decode value)

abbrev Ptr := ℕ

/-- What can be read from a pointer on, to the end of its allocation; nothing
once the allocation is freed. -/
abbrev Memory := Ptr → Option (List UInt8)

/-- The C string at a pointer. Undefined behaviour, here `none`, where the
memory is freed or holds no terminator. -/
def cString (m : Memory) (p : Ptr) : Option (List UInt8) :=
  match m p with
  | none => none
  | some bytes => if 0 ∈ bytes then some (bytes.takeWhile (· ≠ 0)) else none

structure IMessage where
  getText : Ptr

structure IChannelMember where
  getUserId : Ptr
  getChannelId : Ptr

structure PeerOnlineStatus where
  peerId : Ptr
  onlineState : BitVec 32

/-- One argument of a lambda's JavaScript call, as the lambda captured it. A
`string` is a `std::string` of the lambda's own; `peers` holds the SDK's
structures, whose `peerId` still points into SDK memory. -/
inductive Param where
  | int32 (value : BitVec 32)
  | uint64 (value : BitVec 64)
  | string (value : List UInt8)
  | number (value : BitVec 64)
  | uint32 (value : BitVec 32)
  | strings (values : List (List UInt8))
  | peers (status : List PeerOnlineStatus)

structure Task where
  event : String
  params : List Param

def peerStatus (m : Memory) (p : PeerOnlineStatus) : Option (List (String × Scalar)) := do
  let peerId ← cString m p.peerId
  return [("peerId", napi_create_string_ peerId), ("onlineState", .number p.onlineState.toNat)]

def Param.create (m : Memory) : Param → Option JsValue
  | .int32 value => some (.scalar (napi_create_int32_ value))
  | .uint64 value => some (.scalar (napi_create_uint64_ value))
  | .string value => some (.scalar (napi_create_string_ value))
  | .number value => some (.scalar (.number (doubleOfInt value.toInt)))
  | .uint32 value => some (.scalar (.number value.toNat))
  | .strings values => some (.array (values.map napi_create_string_))
  | .peers status => (status.mapM (peerStatus m)).map .records

def Task.argv (m : Memory) (t : Task) : Option (List JsValue) := t.params.mapM (Param.create m)

def RTM_LOGIN_SUCESS : String := "LoginSuccess"
def RTM_LOGIN_FAILURE : String := "LoginFailure"
def RTM_LOGOUT : String := "Logout"
def RTM_CONNECTION_STATE_CHANGED : String := "ConnectionStateChanged"
def RTM_SEND_MESSAGE_STATE : String := "SendMessageState"
def RTM_MESSAGE_RECEIVED_FROM_PEER : String := "MessageReceivedFromPeer"
def RTM_RENEW_TOKEN_RESULT : String := "RenewTokenResult"
def RTM_TOKEN_EXPIRED : String := "TokenExpired"
def RTM_QUERY_PEERS_RESULT : String := "QueryPeersOnlineStatusResult"

def RTM_CHANNEL_JOIN_SUCESS : String := "JoinSuccess"
def RTM_CHANNEL_JOIN_FAILURE : String := "JoinFailure"
def RTM_CHANNEL_SEND_MESSAGE_STATE : String := "SendMessageState"
def RTM_CHANNEL_MESSAGE_RECEIVED : String := "MessageReceived"
def RTM_CHANNEL_MEMBER_JOINED : String := "MemberJoined"
def RTM_CHANNEL_MEMBER_LEFT : String := "MemberLeft"
def RTM_CHANNEL_GET_MEMBERS : String := "GetMembers"
def RTM_CHANNEL_LEAVE_CHANNEL : String := "LeaveChannel"

inductive ControllerCallback where
  | onLoginSuccess
  | onLoginFailure (errorCode : BitVec 32)
  | onLogout (errorCode : BitVec 32)
  | onConnectionStateChanged (state reason : BitVec 32)
  | onRenewTokenResult (token : Ptr) (errorCode : BitVec 32)
  | onTokenExpired
  | onSendMessageResult (messageId : BitVec 64) (state : BitVec 32)
  | onMessageReceivedFromPeer (peerId : Ptr) (message : IMessage)
  | onQueryPeersOnlineStatusResult (requestId : BitVec 64) (peersStatus : List PeerOnlineStatus)
      (errorCode : BitVec 32)

inductive ChannelCallback where
  | onJoinSuccess
  | onJoinFailure (errorCode : BitVec 32)
  | onSendMessageResult (messageId : BitVec 64) (state : BitVec 32)
  | onMessageReceived (userId : Ptr) (message : IMessage)
  | onMemberJoined (member : IChannelMember)
  | onMemberLeft (member : IChannelMember)
  | onGetMembers (members : List IChannelMember) (errorCode : BitVec 32)
  | onLeave (errorCode : BitVec 32)

def postStrings (m : Memory) (event : String) (first second : Ptr) : Option Task := do
  let mFirst ← cString m first
  let mSecond ← cString m second
  return ⟨event, [.string mFirst, .string mSecond]⟩

theorem postStrings_eq {m : Memory} {event : String} {p q : Ptr} {t : Task}
    (h : postStrings m event p q = some t) :
    ∃ a b, cString m p = some a ∧ cString m q = some b ∧ t = ⟨event, [.string a, .string b]⟩ := by
  obtain ⟨a, ha, h⟩ := Option.bind_eq_some_iff.mp h
  obtain ⟨b, hb, h⟩ := Option.bind_eq_some_iff.mp h
  exact ⟨a, b, ha, hb, (Option.some.inj h).symm⟩

/-- What `RtmServerController` posts, reading SDK memory while the callback is
on the stack. The peers of a query are read into `peerStatus`, but it is the
SDK's own structure that is pushed into the captured vector. -/
def ControllerCallback.post (m : Memory) : ControllerCallback → Option Task
  | .onLoginSuccess => some ⟨RTM_LOGIN_SUCESS, []⟩
  | .onLoginFailure errorCode => some ⟨RTM_LOGIN_FAILURE, [.int32 errorCode]⟩
  | .onLogout errorCode => some ⟨RTM_LOGOUT, [.int32 errorCode]⟩
  | .onConnectionStateChanged state reason =>
    some ⟨RTM_CONNECTION_STATE_CHANGED, [.int32 state, .int32 reason]⟩
  | .onRenewTokenResult token errorCode => do
    let mToken ← cString m token
    return ⟨RTM_RENEW_TOKEN_RESULT, [.string mToken, .int32 errorCode]⟩
  | .onTokenExpired => some ⟨RTM_TOKEN_EXPIRED, []⟩
  | .onSendMessageResult messageId state =>
    some ⟨RTM_SEND_MESSAGE_STATE, [.int32 (messageId.setWidth 32), .int32 state]⟩
  | .onMessageReceivedFromPeer peerId message =>
    postStrings m RTM_MESSAGE_RECEIVED_FROM_PEER peerId message.getText
  | .onQueryPeersOnlineStatusResult requestId peersStatus errorCode => do
    let _peerStatus ← peersStatus.mapM fun p => cString m p.peerId
    return ⟨RTM_QUERY_PEERS_RESULT, [.number requestId, .uint32 errorCode, .peers peersStatus]⟩

def ChannelCallback.post (m : Memory) : ChannelCallback → Option Task
  | .onJoinSuccess => some ⟨RTM_CHANNEL_JOIN_SUCESS, []⟩
  | .onJoinFailure errorCode => some ⟨RTM_CHANNEL_JOIN_FAILURE, [.int32 errorCode]⟩
  | .onSendMessageResult messageId state =>
    some ⟨RTM_CHANNEL_SEND_MESSAGE_STATE, [.uint64 messageId, .int32 state]⟩
  | .onMessageReceived userId message =>
    postStrings m RTM_CHANNEL_MESSAGE_RECEIVED userId message.getText
  | .onMemberJoined member =>
    postStrings m RTM_CHANNEL_MEMBER_JOINED member.getUserId member.getChannelId
  | .onMemberLeft member =>
    postStrings m RTM_CHANNEL_MEMBER_LEFT member.getUserId member.getChannelId
  | .onGetMembers members errorCode => do
    let users ← members.mapM fun member => do
      let sUserId ← cString m member.getUserId
      let _sChannelId ← cString m member.getChannelId
      return sUserId
    return ⟨RTM_CHANNEL_GET_MEMBERS, [.strings users, .int32 errorCode]⟩
  | .onLeave errorCode => some ⟨RTM_CHANNEL_LEAVE_CHANNEL, [.int32 errorCode]⟩

theorem members_names {m : Memory} (members : List IChannelMember) (users : List (List UInt8))
    (h : (members.mapM fun c => do
      let sUserId ← cString m c.getUserId
      let _sChannelId ← cString m c.getChannelId
      return sUserId) = some users) :
    (members.mapM fun c => cString m c.getUserId) = some users := by
  induction members generalizing users with
  | nil => exact h
  | cons c members ih =>
    rw [List.mapM_cons] at h
    obtain ⟨user, huser, h⟩ := Option.bind_eq_some_iff.mp h
    obtain ⟨others, hothers, h⟩ := Option.bind_eq_some_iff.mp h
    obtain rfl := Option.some.inj h
    obtain ⟨sUserId, hu, h⟩ := Option.bind_eq_some_iff.mp huser
    obtain ⟨sChannelId, -, h⟩ := Option.bind_eq_some_iff.mp h
    obtain rfl := Option.some.inj h
    rw [List.mapM_cons, hu, ih others hothers]
    rfl

inductive Callback where
  | controller (c : ControllerCallback)
  | channel (c : ChannelCallback)

def Callback.post (m : Memory) : Callback → Option Task
  | .controller c => c.post m
  | .channel c => c.post m

end AgoraRtm.NativeEvents
