import AgoraRtm.NativeEvents
import Mathlib.Data.List.Basic

/-!
# Which event payloads are snapshots

A task runs later, over whatever the SDK has made of its memory by then. A
payload is a snapshot if the arguments built at that time are the values the
memory held during the callback, whatever the later memory is.
-/

set_option autoImplicit false

namespace AgoraRtm.NativeEvents

def Callback.carriesText : Callback → Bool
  | .controller (.onRenewTokenResult _ _) => true
  | .controller (.onMessageReceivedFromPeer _ _) => true
  | .controller (.onQueryPeersOnlineStatusResult _ _ _) => true
  | .channel (.onMessageReceived _ _) => true
  | .channel (.onMemberJoined _) => true
  | .channel (.onMemberLeft _) => true
  | .channel (.onGetMembers _ _) => true
  | _ => false

def text (m : Memory) (p : Ptr) : Option Scalar :=
  (cString m p).map fun bytes => .string (Utf8.decode bytes)

def texts (m : Memory) (p q : Ptr) : Option (List JsValue) :=
  (text m p).bind fun first => (text m q).map fun second => [.scalar first, .scalar second]

def entry (m : Memory) (p : PeerOnlineStatus) : Option (List (String × Scalar)) :=
  (text m p.peerId).map fun peer =>
    [("peerId", peer), ("onlineState", .number p.onlineState.toNat)]

/-- What such a callback was given: each string as its buffer held it during
the callback, lists entry by entry. It says what is meant to reach JavaScript
and does not mention what a lambda captures. -/
def Callback.held (m : Memory) : Callback → Option (List JsValue)
  | .controller (.onRenewTokenResult token errorCode) =>
    (text m token).map fun token => [.scalar token, .scalar (.number errorCode.toInt)]
  | .controller (.onMessageReceivedFromPeer peerId message) => texts m peerId message.getText
  | .controller (.onQueryPeersOnlineStatusResult requestId peersStatus errorCode) =>
    (peersStatus.mapM (entry m)).map fun peers =>
      [.scalar (.number (doubleOfInt requestId.toInt)), .scalar (.number errorCode.toNat),
        .records peers]
  | .channel (.onMessageReceived userId message) => texts m userId message.getText
  | .channel (.onMemberJoined member) => texts m member.getUserId member.getChannelId
  | .channel (.onMemberLeft member) => texts m member.getUserId member.getChannelId
  | .channel (.onGetMembers members errorCode) =>
    (members.mapM fun c => text m c.getUserId).map fun users =>
      [.array users, .scalar (.number errorCode.toInt)]
  | _ => none

def Callback.listsPeers : Callback → Bool
  | .controller (.onQueryPeersOnlineStatusResult _ peersStatus _) => !peersStatus.isEmpty
  | _ => false

def Param.copied : Param → Bool
  | .peers status => status.isEmpty
  | _ => true

theorem copied_create (p : Param) (h : p.copied = true) (m m' : Memory) :
    p.create m = p.create m' := by
  cases p with
  | peers status =>
    obtain rfl : status = [] := by simpa [Param.copied] using h
    rfl
  | _ => rfl

theorem copied_argv (t : Task) (h : ∀ p ∈ t.params, p.copied = true) (m m' : Memory) :
    t.argv m = t.argv m' := by
  obtain ⟨event, params⟩ := t
  simp only [Task.argv] at h ⊢
  induction params with
  | nil => rfl
  | cons p params ih =>
    have hp := copied_create p (h p (by simp)) m m'
    have hrest := ih fun q hq => h q (by simp [hq])
    simp only [List.mapM_cons, hp, hrest]

theorem peers_create (m : Memory) (status : List PeerOnlineStatus) :
    (Param.peers status).create m = (status.mapM (entry m)).map .records := by
  have hp : peerStatus m = entry m := by
    funext p
    cases hc : cString m p.peerId <;> simp [peerStatus, entry, text, hc, napi_create_string_]
  rw [Param.create, hp]

theorem entry_readable (m : Memory) (status : List PeerOnlineStatus) (names : List (List UInt8))
    (h : (status.mapM fun p => cString m p.peerId) = some names) :
    ∃ peers, status.mapM (entry m) = some peers := by
  induction status generalizing names with
  | nil => exact ⟨[], rfl⟩
  | cons p rest ih =>
    rw [List.mapM_cons] at h
    obtain ⟨name, hname, h⟩ := Option.bind_eq_some_iff.mp h
    obtain ⟨others, hothers, -⟩ := Option.bind_eq_some_iff.mp h
    obtain ⟨peers, hpeers⟩ := ih others hothers
    have hentry : entry m p = some [("peerId", .string (Utf8.decode name)),
        ("onlineState", .number p.onlineState.toNat)] := by
      simp [entry, text, hname]
    exact ⟨_ :: peers, by rw [List.mapM_cons, hentry, hpeers]; rfl⟩

theorem users_text (m : Memory) (members : List IChannelMember) (users : List (List UInt8))
    (h : (members.mapM fun c => do
      let sUserId ← cString m c.getUserId
      let _sChannelId ← cString m c.getChannelId
      return sUserId) = some users) :
    (members.mapM fun c => text m c.getUserId) = some (users.map napi_create_string_) := by
  have hnames := members_names members users h
  clear h
  induction members generalizing users with
  | nil =>
    obtain rfl : users = [] := by simpa using hnames.symm
    rfl
  | cons c members ih =>
    rw [List.mapM_cons] at hnames
    obtain ⟨user, huser, hnames⟩ := Option.bind_eq_some_iff.mp hnames
    obtain ⟨others, hothers, hnames⟩ := Option.bind_eq_some_iff.mp hnames
    obtain rfl := Option.some.inj hnames
    have htext : text m c.getUserId = some (napi_create_string_ user) := by
      simp [text, huser, napi_create_string_]
    rw [List.mapM_cons, htext, ih others hothers]
    rfl

theorem strings_argv {m : Memory} {event : String} {p q : Ptr} {t : Task}
    (h : postStrings m event p q = some t) : t.argv m = texts m p q := by
  obtain ⟨a, b, ha, hb, rfl⟩ := postStrings_eq h
  simp [Task.argv, Param.create, texts, text, ha, hb, napi_create_string_]

theorem query_argv (m : Memory) (event : String) (requestId : BitVec 64) (errorCode : BitVec 32)
    (status : List PeerOnlineStatus) :
    (Task.mk event [.number requestId, .uint32 errorCode, .peers status]).argv m =
      (status.mapM (entry m)).map fun peers =>
        [.scalar (.number (doubleOfInt requestId.toInt)), .scalar (.number errorCode.toNat),
          .records peers] := by
  have hpeers := peers_create m status
  cases he : status.mapM (entry m) with
  | none =>
    rw [he] at hpeers
    simp [Task.argv, hpeers]
  | some peers =>
    rw [he] at hpeers
    simp [Task.argv, hpeers]
    simp [Param.create]

/-- Run at once, over the memory of the callback, every task delivers what the
callback was given. -/
theorem post_held (m : Memory) (cb : Callback) (t : Task) (hp : cb.post m = some t)
    (hc : cb.carriesText = true) : t.argv m = cb.held m := by
  rcases cb with c | c
  · cases c with
    | onRenewTokenResult token errorCode =>
      obtain ⟨bytes, hb, ht⟩ := Option.bind_eq_some_iff.mp hp
      obtain rfl := Option.some.inj ht
      simp [Task.argv, Param.create, Callback.held, text, hb, napi_create_string_,
        napi_create_int32_]
    | onMessageReceivedFromPeer peerId message => exact strings_argv hp
    | onQueryPeersOnlineStatusResult requestId peersStatus errorCode =>
      obtain ⟨names, -, ht⟩ := Option.bind_eq_some_iff.mp hp
      obtain rfl := Option.some.inj ht
      exact query_argv m _ _ _ _
    | _ => simp [Callback.carriesText] at hc
  · cases c with
    | onMessageReceived userId message => exact strings_argv hp
    | onMemberJoined member => exact strings_argv hp
    | onMemberLeft member => exact strings_argv hp
    | onGetMembers members errorCode =>
      obtain ⟨users, hu, ht⟩ := Option.bind_eq_some_iff.mp hp
      obtain rfl := Option.some.inj ht
      have htext := users_text m members users hu
      simp [Task.argv, Param.create, Callback.held, htext, napi_create_int32_]
    | _ => simp [Callback.carriesText] at hc

theorem strings_copied {m : Memory} {event : String} {p q : Ptr} {t : Task}
    (h : postStrings m event p q = some t) : ∀ x ∈ t.params, x.copied = true := by
  obtain ⟨a, b, -, -, rfl⟩ := postStrings_eq h
  simp [Param.copied]

/-- Every callback but a query result that lists peers captures copies only. -/
theorem post_copied (m : Memory) (cb : Callback) (t : Task) (hp : cb.post m = some t)
    (hl : cb.listsPeers = false) : ∀ p ∈ t.params, p.copied = true := by
  rcases cb with c | c
  · cases c with
    | onRenewTokenResult token errorCode =>
      obtain ⟨bytes, -, ht⟩ := Option.bind_eq_some_iff.mp hp
      obtain rfl := Option.some.inj ht
      simp [Param.copied]
    | onMessageReceivedFromPeer peerId message => exact strings_copied hp
    | onQueryPeersOnlineStatusResult requestId peersStatus errorCode =>
      obtain ⟨names, -, ht⟩ := Option.bind_eq_some_iff.mp hp
      obtain rfl := Option.some.inj ht
      have hnil : peersStatus = [] := by simpa [Callback.listsPeers] using hl
      simp [Param.copied, hnil]
    | _ =>
      obtain rfl := Option.some.inj hp
      simp [Param.copied]
  · cases c with
    | onMessageReceived userId message => exact strings_copied hp
    | onMemberJoined member => exact strings_copied hp
    | onMemberLeft member => exact strings_copied hp
    | onGetMembers members errorCode =>
      obtain ⟨users, -, ht⟩ := Option.bind_eq_some_iff.mp hp
      obtain rfl := Option.some.inj ht
      simp [Param.copied]
    | _ =>
      obtain rfl := Option.some.inj hp
      simp [Param.copied]

def freed : Memory := fun _ => none

theorem listed_freed (m : Memory) (cb : Callback) (t : Task) (hp : cb.post m = some t)
    (hl : cb.listsPeers = true) : t.argv freed = none ∧ ∃ args, cb.held m = some args := by
  rcases cb with c | c
  · cases c with
    | onQueryPeersOnlineStatusResult requestId peersStatus errorCode =>
      obtain ⟨names, hnames, ht⟩ := Option.bind_eq_some_iff.mp hp
      obtain rfl := Option.some.inj ht
      obtain ⟨peers, hpeers⟩ := entry_readable m peersStatus names hnames
      refine ⟨?_, _, by rw [Callback.held, hpeers]; rfl⟩
      cases peersStatus with
      | nil => simp [Callback.listsPeers] at hl
      | cons p rest =>
        rw [query_argv]
        simp [entry, text, cString, freed]
    | _ => simp [Callback.listsPeers] at hl
  · simp [Callback.listsPeers] at hl

/-- A payload is a snapshot exactly where the callback is not a query result
that lists a peer; there the captured `peerId` pointers outlive the callback. -/
theorem payload_snapshot (m : Memory) (cb : Callback) (t : Task) (hp : cb.post m = some t)
    (hc : cb.carriesText = true) :
    (∀ later : Memory, t.argv later = cb.held m) ↔ cb.listsPeers = false := by
  constructor
  · intro h
    by_contra hl
    obtain ⟨hnone, args, hargs⟩ := listed_freed m cb t hp (by simpa using hl)
    have hfreed := h freed
    rw [hnone, hargs] at hfreed
    cases hfreed
  · intro hl later
    rw [copied_argv t (post_copied m cb t hp hl) later m]
    exact post_held m cb t hp hc

def oneBuffer (bytes : List UInt8) : Memory := fun p => if p = 1 then some (bytes ++ [0]) else none

theorem payload_snapshot_message :
    Task.argv freed ⟨RTM_MESSAGE_RECEIVED_FROM_PEER, [.string [97, 98], .string [97, 98]]⟩ =
      Callback.held (oneBuffer [97, 98]) (.controller (.onMessageReceivedFromPeer 1 ⟨1⟩)) :=
  (payload_snapshot (oneBuffer [97, 98]) (.controller (.onMessageReceivedFromPeer 1 ⟨1⟩)) _
    rfl rfl).mpr rfl freed

/-- The peer "ab" is asked about; before the task runs the SDK reuses its
buffer for "cd", and the event names "cd". -/
theorem query_result_rewritten :
    ∃ t : Task, Callback.post (oneBuffer [97, 98])
        (.controller (.onQueryPeersOnlineStatusResult 7 [⟨1, 0⟩] 0)) = some t ∧
      t.argv (oneBuffer [99, 100]) ≠ Callback.held (oneBuffer [97, 98])
        (.controller (.onQueryPeersOnlineStatusResult 7 [⟨1, 0⟩] 0)) := by
  refine ⟨⟨RTM_QUERY_PEERS_RESULT, [.number 7, .uint32 0, .peers [⟨1, 0⟩]]⟩, rfl, ?_⟩
  decide

end AgoraRtm.NativeEvents
