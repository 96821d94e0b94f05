import AgoraRtm.Reception
import AgoraRtm.Snapshot

/-!
# Declared and emitted signatures

`rtm.ts` declares for each event the names and types of its arguments. The
addon builds the arguments by hand in C++. An emitted event agrees with its
declaration if at each position stands the part of the native payload that the
declaration names there, as a value of the declared type.
-/

set_option autoImplicit false

namespace AgoraRtm.Reception
open NativeEvents Delivery NativeSystem

inductive TsType where
  | number
  | string
  | any
  | emptyTuple
  deriving DecidableEq, Repr

abbrev Signature := List (String × TsType)

def RTMControllerEvent : List (String × Signature) :=
  [("LoginSuccess", []), ("LoginFailure", [("ecode", .number)]), ("Logout", [("ecode", .number)]),
    ("MessageReceivedFromPeer", [("peerId", .string), ("message", .string)]),
    ("ConnectionStateChanged", [("state", .number), ("ecode", .number)]),
    ("RenewTokenResult", [("token", .string), ("ecode", .number)]), ("TokenExpired", []),
    ("SendMessageState", [("messageId", .number), ("state", .number)]),
    ("QueryPeersOnlineStatusResult",
      [("requestId", .number), ("peersStatus", .any), ("errorCode", .number)])]

def RTMChannelEvent : List (String × Signature) :=
  [("JoinSuccess", []), ("JoinFailure", [("ecode", .number)]),
    ("LeaveChannel", [("ecode", .number)]),
    ("SendMessageState", [("messageId", .string), ("state", .number)]),
    ("MessageReceived", [("peerId", .string), ("message", .string)]),
    ("MemberJoined", [("peerId", .string), ("channelName", .string)]),
    ("MemberLeft", [("peerId", .string), ("channelName", .string)]),
    ("GetMembers", [("members", .emptyTuple), ("ecode", .number)])]

def declared : Kind → List (String × Signature)
  | .controller => RTMControllerEvent
  | .channel => RTMChannelEvent

/-- `[]` is the type of empty tuples; read loosely it stands for any array. -/
def HasType (exact : Bool) : TsType → JsValue → Prop
  | .number, .scalar (.number _) => True
  | .string, .scalar (.string _) => True
  | .any, _ => True
  | .emptyTuple, .array elems => exact = true → elems = []
  | .emptyTuple, .records elems => exact = true → elems = []
  | _, _ => False

inductive Part where
  | code (value : BitVec 32)
  | id (value : BitVec 64)
  | text (bytes : List UInt8)
  | texts (values : List (List UInt8))
  | peers (status : List (List UInt8 × BitVec 32))

def numeral (n : ℤ) : List UInt16 := (toString n).toList.map fun ch => UInt16.ofNat ch.toNat

/-- The JavaScript values that stand for a part. A code or an id may go through
any of the conversions of the addon, or be written out; which of them keep the
value is another matter. -/
inductive Part.Shown : Part → JsValue → Prop
  | int32 (value : BitVec 32) : Shown (.code value) (.scalar (napi_create_int32_ value))
  | uint32 (value : BitVec 32) : Shown (.code value) (.scalar (.number value.toNat))
  | narrowed (value : BitVec 64) :
    Shown (.id value) (.scalar (napi_create_int32_ (value.setWidth 32)))
  | unsigned (value : BitVec 64) : Shown (.id value) (.scalar (napi_create_uint64_ value))
  | double (value : BitVec 64) : Shown (.id value) (.scalar (.number (doubleOfInt value.toInt)))
  | numeral (value : BitVec 64) : Shown (.id value) (.scalar (.string (numeral value.toInt)))
  | text (bytes : List UInt8) : Shown (.text bytes) (.scalar (napi_create_string_ bytes))
  | texts (values : List (List UInt8)) :
    Shown (.texts values) (.array (values.map napi_create_string_))
  | peers (status : List (List UInt8 × BitVec 32)) :
    Shown (.peers status) (.records (status.map fun p =>
      [("peerId", napi_create_string_ p.1), ("onlineState", .number p.2.toNat)]))

abbrev Payload := List (String × Option Part)

def textPart (m : Memory) (p : Ptr) : Option Part := (cString m p).map .text

def ControllerCallback.payload (m : Memory) : ControllerCallback → Payload
  | .onLoginSuccess => []
  | .onLoginFailure errorCode => [("ecode", some (.code errorCode))]
  | .onLogout errorCode => [("ecode", some (.code errorCode))]
  | .onConnectionStateChanged state reason =>
    [("state", some (.code state)), ("ecode", some (.code reason))]
  | .onRenewTokenResult token errorCode =>
    [("token", textPart m token), ("ecode", some (.code errorCode))]
  | .onTokenExpired => []
  | .onSendMessageResult messageId state =>
    [("messageId", some (.id messageId)), ("state", some (.code state))]
  | .onMessageReceivedFromPeer peerId message =>
    [("peerId", textPart m peerId), ("message", textPart m message.getText)]
  | .onQueryPeersOnlineStatusResult requestId peersStatus errorCode =>
    [("requestId", some (.id requestId)),
      ("peersStatus", (peersStatus.mapM fun p =>
        (cString m p.peerId).map fun peerId => (peerId, p.onlineState)).map .peers),
      ("errorCode", some (.code errorCode))]

def ChannelCallback.payload (m : Memory) : ChannelCallback → Payload
  | .onJoinSuccess => []
  | .onJoinFailure errorCode => [("ecode", some (.code errorCode))]
  | .onSendMessageResult messageId state =>
    [("messageId", some (.id messageId)), ("state", some (.code state))]
  | .onMessageReceived userId message =>
    [("peerId", textPart m userId), ("message", textPart m message.getText)]
  | .onMemberJoined member =>
    [("peerId", textPart m member.getUserId), ("channelName", textPart m member.getChannelId)]
  | .onMemberLeft member =>
    [("peerId", textPart m member.getUserId), ("channelName", textPart m member.getChannelId)]
  | .onGetMembers members errorCode =>
    [("members", (members.mapM fun c => cString m c.getUserId).map .texts),
      ("ecode", some (.code errorCode))]
  | .onLeave errorCode => [("ecode", some (.code errorCode))]

def payload (m : Memory) : Callback → Payload
  | .controller c => ControllerCallback.payload m c
  | .channel c => ChannelCallback.payload m c

/-- At a position of a signature stands the named part, with the declared type. -/
def Fits (exact : Bool) (parts : Payload) (p : String × TsType) (v : JsValue) : Prop :=
  (∃ part, parts.lookup p.1 = some (some part) ∧ part.Shown v) ∧ HasType exact p.2 v

/-- The event is declared and its arguments fit, position by position. -/
def Agrees (exact : Bool) (kind : Kind) (parts : Payload) (n : Notice) : Prop :=
  ∃ signature, (declared kind).lookup n.1 = some signature ∧
    List.Forall₂ (Fits exact parts) signature n.2

/-- The declarations that the addon does not keep: the order of a query result,
the type of a channel message's id, and, read exactly, the type of a member list. -/
def misdeclared (exact : Bool) : Callback → Bool
  | .controller (.onQueryPeersOnlineStatusResult _ _ _) => true
  | .channel (.onSendMessageResult _ _) => true
  | .channel (.onGetMembers members _) => exact && !members.isEmpty
  | _ => false

section Agreement

variable {exact : Bool} {m later : Memory}

theorem agrees_none {kind : Kind} {parts : Payload} {event : String}
    (hd : (declared kind).lookup event = some []) : Agrees exact kind parts (event, []) :=
  ⟨[], hd, .nil⟩

theorem agrees_code {kind : Kind} {event : String} (errorCode : BitVec 32)
    (hd : (declared kind).lookup event = some [("ecode", .number)]) :
    Agrees exact kind [("ecode", some (.code errorCode))]
      (event, [.scalar (napi_create_int32_ errorCode)]) :=
  ⟨_, hd, .cons ⟨⟨_, rfl, .int32 errorCode⟩, trivial⟩ .nil⟩

theorem agrees_texts {kind : Kind} {event first second : String} {p q : Ptr} {t : Task} {n : Notice}
    (hne : (second == first) = false)
    (hd : (declared kind).lookup event = some [(first, .string), (second, .string)])
    (ht : postStrings m event p q = some t) (hn : t.argv later = some n.2 ∧ n.1 = t.event) :
    Agrees exact kind [(first, textPart m p), (second, textPart m q)] n := by
  obtain ⟨a, b, ha, hb, rfl⟩ := postStrings_eq ht
  obtain ⟨event', argv⟩ := n
  obtain ⟨hargv, rfl⟩ := hn
  obtain rfl := Option.some.inj hargv
  refine ⟨_, hd, .cons ⟨⟨.text a, ?_, .text a⟩, trivial⟩
    (.cons ⟨⟨.text b, ?_, .text b⟩, trivial⟩ .nil)⟩
  · simp [textPart, ha]
  · simp [List.lookup_cons, hne, textPart, hb]

theorem controller_agrees (c : ControllerCallback) (t : Task) (n : Notice) (hp : c.post m = some t)
    (hn : t.argv later = some n.2 ∧ n.1 = t.event)
    (hq : misdeclared exact (.controller c) = false) :
    Agrees exact .controller (ControllerCallback.payload m c) n := by
  obtain ⟨event, argv⟩ := n
  obtain ⟨hargv, hevent⟩ := hn
  cases c with
  | onRenewTokenResult token errorCode =>
    obtain ⟨bytes, hb, ht⟩ := Option.bind_eq_some_iff.mp hp
    obtain rfl := Option.some.inj ht
    obtain rfl := Option.some.inj hargv
    subst hevent
    refine ⟨_, rfl, .cons ⟨⟨.text bytes, ?_, .text bytes⟩, trivial⟩
      (.cons ⟨⟨_, rfl, .int32 errorCode⟩, trivial⟩ .nil)⟩
    simp [ControllerCallback.payload, textPart, hb]
  | onMessageReceivedFromPeer peerId message => exact agrees_texts rfl rfl hp ⟨hargv, hevent⟩
  | onQueryPeersOnlineStatusResult requestId peersStatus errorCode => cases hq
  | onConnectionStateChanged state reason =>
    obtain rfl := Option.some.inj hp
    obtain rfl := Option.some.inj hargv
    subst hevent
    exact ⟨_, rfl, .cons ⟨⟨_, rfl, .int32 state⟩, trivial⟩
      (.cons ⟨⟨_, rfl, .int32 reason⟩, trivial⟩ .nil)⟩
  | onSendMessageResult messageId state =>
    obtain rfl := Option.some.inj hp
    obtain rfl := Option.some.inj hargv
    subst hevent
    exact ⟨_, rfl, .cons ⟨⟨_, rfl, .narrowed messageId⟩, trivial⟩
      (.cons ⟨⟨_, rfl, .int32 state⟩, trivial⟩ .nil)⟩
  | onLoginFailure errorCode =>
    obtain rfl := Option.some.inj hp
    obtain rfl := Option.some.inj hargv
    subst hevent
    exact agrees_code errorCode rfl
  | onLogout errorCode =>
    obtain rfl := Option.some.inj hp
    obtain rfl := Option.some.inj hargv
    subst hevent
    exact agrees_code errorCode rfl
  | _ =>
    obtain rfl := Option.some.inj hp
    obtain rfl := Option.some.inj hargv
    subst hevent
    exact agrees_none rfl

theorem channel_agrees (c : ChannelCallback) (t : Task) (n : Notice) (hp : c.post m = some t)
    (hn : t.argv later = some n.2 ∧ n.1 = t.event)
    (hq : misdeclared exact (.channel c) = false) :
    Agrees exact .channel (ChannelCallback.payload m c) n := by
  obtain ⟨event, argv⟩ := n
  obtain ⟨hargv, hevent⟩ := hn
  cases c with
  | onSendMessageResult messageId state => cases hq
  | onMessageReceived userId message => exact agrees_texts rfl rfl hp ⟨hargv, hevent⟩
  | onMemberJoined member => exact agrees_texts rfl rfl hp ⟨hargv, hevent⟩
  | onMemberLeft member => exact agrees_texts rfl rfl hp ⟨hargv, hevent⟩
  | onGetMembers members errorCode =>
    obtain ⟨users, hu, ht⟩ := Option.bind_eq_some_iff.mp hp
    obtain rfl := Option.some.inj ht
    obtain rfl := Option.some.inj hargv
    subst hevent
    have hnames := members_names members users hu
    refine ⟨_, rfl, .cons ⟨⟨.texts users, ?_, .texts users⟩, ?_⟩
      (.cons ⟨⟨_, rfl, .int32 errorCode⟩, trivial⟩ .nil)⟩
    · simp [ChannelCallback.payload, hnames]
    · -- only an empty list of members is an empty tuple
      intro hexact
      have hnil : members = [] := by simpa [misdeclared, hexact] using hq
      subst hnil
      obtain rfl : [] = users := Option.some.inj hnames
      rfl
  | onJoinFailure errorCode =>
    obtain rfl := Option.some.inj hp
    obtain rfl := Option.some.inj hargv
    subst hevent
    exact agrees_code errorCode rfl
  | onLeave errorCode =>
    obtain rfl := Option.some.inj hp
    obtain rfl := Option.some.inj hargv
    subst hevent
    exact agrees_code errorCode rfl
  | onJoinSuccess =>
    obtain rfl := Option.some.inj hp
    obtain rfl := Option.some.inj hargv
    subst hevent
    exact agrees_none rfl

theorem query_disagrees (requestId : BitVec 64) (peersStatus : List PeerOnlineStatus)
    (errorCode : BitVec 32) (v w : JsValue) :
    ¬ Agrees exact .controller
      (ControllerCallback.payload m
        (.onQueryPeersOnlineStatusResult requestId peersStatus errorCode))
      (RTM_QUERY_PEERS_RESULT, [v, .scalar (.number errorCode.toNat), w]) := by
  rintro ⟨signature, hd, hfits⟩
  obtain rfl := Option.some.inj hd
  rcases hfits with _ | ⟨-, _ | ⟨⟨⟨part, hpart, hshown⟩, -⟩, -⟩⟩
  obtain ⟨status, -, rfl⟩ := Option.map_eq_some_iff.mp (Option.some.inj hpart)
  cases hshown

theorem misdeclared_disagrees (cb : Callback) (t : Task) (n : Notice) (hp : cb.post m = some t)
    (hn : t.argv later = some n.2 ∧ n.1 = t.event) (hq : misdeclared exact cb = true) :
    ¬ Agrees exact (kindOf cb) (payload m cb) n := by
  obtain ⟨event, argv⟩ := n
  obtain ⟨hargv, hevent⟩ := hn
  rcases cb with c | c
  · cases c with
    | onQueryPeersOnlineStatusResult requestId peersStatus errorCode =>
      obtain ⟨names, -, ht⟩ := Option.bind_eq_some_iff.mp hp
      obtain rfl := Option.some.inj ht
      subst hevent
      rw [query_argv] at hargv
      obtain ⟨peers, -, rfl⟩ := Option.map_eq_some_iff.mp hargv
      exact query_disagrees requestId peersStatus errorCode _ _
    | _ => cases hq
  · cases c with
    | onSendMessageResult messageId state =>
      obtain rfl := Option.some.inj hp
      obtain rfl := Option.some.inj hargv
      subst hevent
      rintro ⟨signature, hd, hfits⟩
      obtain rfl := Option.some.inj hd
      rcases hfits with _ | ⟨⟨-, htype⟩, -⟩
      exact htype
    | onGetMembers members errorCode =>
      obtain ⟨users, hu, ht⟩ := Option.bind_eq_some_iff.mp hp
      obtain rfl := Option.some.inj ht
      obtain rfl := Option.some.inj hargv
      subst hevent
      rintro ⟨signature, hd, hfits⟩
      obtain rfl := Option.some.inj hd
      rcases hfits with _ | ⟨⟨-, htype⟩, -⟩
      obtain ⟨rfl, hmembers⟩ : exact = true ∧ members ≠ [] := by simpa [misdeclared] using hq
      have hnames := members_names members users hu
      have hnil : users = [] := by simpa using htype rfl
      cases members with
      | nil => exact hmembers rfl
      | cons c rest =>
        subst hnil
        rw [List.mapM_cons] at hnames
        obtain ⟨user, -, hrest⟩ := Option.bind_eq_some_iff.mp hnames
        obtain ⟨others, -, hcons⟩ := Option.bind_eq_some_iff.mp hrest
        cases hcons
    | _ => cases hq

end Agreement

/-- An emitted event agrees with its declaration exactly where the callback is
neither a query result nor the state of a channel message (nor, where `[]` is
read as the empty tuple, a list of members that is not empty). -/
theorem declared_shape (exact : Bool) (m later : Memory) (cb : Callback) (t : Task) (n : Notice)
    (hp : cb.post m = some t) (hn : received (kindOf cb) later t = some n) :
    Agrees exact (kindOf cb) (payload m cb) n ↔ misdeclared exact cb = false := by
  have hn' := received_some hp hn
  constructor
  · intro hagrees
    by_contra hq
    exact misdeclared_disagrees cb t n hp hn' (by simpa using hq) hagrees
  · intro hq
    cases cb with
    | controller c => exact controller_agrees c t n hp hn' hq
    | channel c => exact channel_agrees c t n hp hn' hq

theorem declared_shape_message :
    Agrees true .controller (payload (oneBuffer [97, 98])
      (.controller (.onMessageReceivedFromPeer 1 ⟨1⟩)))
      ("MessageReceivedFromPeer", [.scalar (.string [97, 98]), .scalar (.string [97, 98])]) ∧
    ¬ Agrees true .controller (payload freed (.controller (.onQueryPeersOnlineStatusResult 7 [] 2)))
      ("QueryPeersOnlineStatusResult",
        [.scalar (.number 7), .scalar (.number 2), .records []]) :=
  ⟨(declared_shape true (oneBuffer [97, 98]) freed (.controller (.onMessageReceivedFromPeer 1 ⟨1⟩))
      _ _ rfl rfl).mpr rfl,
    fun h => by
      have hq := (declared_shape true freed freed
        (.controller (.onQueryPeersOnlineStatusResult 7 [] 2)) _ _ rfl rfl).mp h
      cases hq⟩

/-- The result of query 7 about no peers with error code 2: the error code is
emitted in the place of the peers. -/
theorem query_result_out_of_order :
    ¬ ∀ (m later : Memory) (cb : Callback) (t : Task) (n : Notice), cb.post m = some t →
      received (kindOf cb) later t = some n → Agrees false (kindOf cb) (payload m cb) n := by
  intro h
  have hagrees := h freed freed (.controller (.onQueryPeersOnlineStatusResult 7 [] 2)) _
    ("QueryPeersOnlineStatusResult", [.scalar (.number 7), .scalar (.number 2), .records []])
    rfl rfl
  exact query_disagrees 7 [] 2 _ _ hagrees

end AgoraRtm.Reception
