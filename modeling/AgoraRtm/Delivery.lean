import AgoraRtm.QueueSafety
import AgoraRtm.NativeEvents

/-!
# From native callback to emitted event

The adapter objects of a process share one queue. A native callback posts its
task from an SDK thread; the loop thread runs the task in a drain of the queue,
which calls the closure that the object's constructor registered; the closure
calls `fire`, and `setImmediate` emits the event in a later check phase.
-/

set_option autoImplicit false

namespace AgoraRtm.Delivery
open Runs NativeEvents

inductive Kind where
  | controller
  | channel
  deriving DecidableEq, Repr

/-- A closure given to `onEvent`: how many parameters it declares and the name
under which it fires them again. -/
structure Closure where
  arity : ℕ
  fires : String
  deriving DecidableEq, Repr

def channelSubscriptions : List (String × Closure) :=
  [("JoinSuccess", ⟨0, "JoinSuccess"⟩), ("JoinFailure", ⟨1, "JoinFailure"⟩),
    ("SendMessageState", ⟨2, "SendMessageState"⟩), ("MessageReceived", ⟨2, "MessageReceived"⟩),
    ("MemberJoined", ⟨2, "MemberJoined"⟩), ("MemberLeft", ⟨2, "MemberLeft"⟩),
    ("GetMembers", ⟨2, "GetMembers"⟩), ("LeaveChannel", ⟨1, "LeaveChannel"⟩)]

def sdkSubscriptions : List (String × Closure) :=
  [("LoginSuccess", ⟨0, "LoginSuccess"⟩), ("LoginFailure", ⟨1, "LoginFailure"⟩),
    ("MessageReceivedFromPeer", ⟨2, "MessageReceivedFromPeer"⟩), ("Logout", ⟨1, "Logout"⟩),
    ("ConnectionStateChanged", ⟨2, "ConnectionStateChanged"⟩),
    ("RenewTokenResult", ⟨2, "RenewTokenResult"⟩), ("TokenExpired", ⟨0, "TokenExpired"⟩),
    ("SendMessageState", ⟨2, "SendMessageState"⟩),
    ("QueryPeersOnlineStatusResult", ⟨3, "QueryPeersOnlineStatusResult"⟩)]

def subscriptions : Kind → List (String × Closure)
  | .controller => sdkSubscriptions
  | .channel => channelSubscriptions

/-- `m_callbacks.emplace`: the first registration of a name stays. -/
def addEventHandler {κ : Type} (m_callbacks : List (String × κ)) (eventName : String)
    (callback : κ) : List (String × κ) :=
  if (m_callbacks.lookup eventName).isSome then m_callbacks
  else m_callbacks ++ [(eventName, callback)]

structure Handler where
  kind : Kind
  object : ℕ
  callbacks : List (String × Closure)
  deriving DecidableEq, Repr

def subscribeEvents (kind : Kind) (object : ℕ) : Handler :=
  ⟨kind, object, (subscriptions kind).foldl (fun cbs x => addEventHandler cbs x.1 x.2) []⟩

structure Posted where
  handler : ℕ
  task : Task

/-- An emitted event. An argument that a closure declares and the native side
did not pass would be `none`, JavaScript's undefined. -/
structure Emitted where
  object : ℕ
  event : String
  args : List (Option Param)

def runTask (handlers : List Handler) (p : Posted) : List Emitted :=
  match handlers[p.handler]? with
  | none => []
  | some handler =>
    match handler.callbacks.lookup p.task.event with
    | none => []
    | some callback =>
      [⟨handler.object, callback.fires,
        (List.range callback.arity).map fun i => p.task.params[i]?⟩]

structure Pipe where
  handlers : List Handler
  queue : AsyncQueue.State Posted
  checking : Bool
  immediates : List Emitted
  emitted : List Emitted

def init : Pipe := ⟨[], AsyncQueue.init, false, [], []⟩

def kindOf : Callback → Kind
  | .controller _ => .controller
  | .channel _ => .channel

inductive Action where
  | construct (kind : Kind)
  | callback (caller : AsyncQueue.Actor) (handler : ℕ) (m : Memory) (cb : Callback)
  | queue (a : AsyncQueue.Action Posted)
  | checkBegin
  | immediate
  | checkEnd

def fired (s : Pipe) : AsyncQueue.Action Posted → List Emitted
  | .finish =>
    match s.queue.loop with
    | .running e => runTask s.handlers e.elem
    | _ => []
  | _ => []

def queueStep (s : Pipe) (a : AsyncQueue.Action Posted) : Option Pipe :=
  (AsyncQueue.step s.queue a).map fun q =>
    { s with queue := q, immediates := s.immediates ++ fired s a }

def step (s : Pipe) : Action → Option Pipe
  | .construct kind =>
    some { s with handlers := s.handlers ++ [subscribeEvents kind s.handlers.length] }
  | .callback caller h m cb =>
    match s.handlers[h]?, cb.post m with
    | some handler, some task =>
      if handler.kind = kindOf cb then queueStep s (.call caller ⟨h, task⟩) else none
    | _, _ => none
  | .queue (.call _ _) => none
  | .queue .wake => if s.checking then none else queueStep s .wake
  | .queue a => queueStep s a
  | .checkBegin =>
    match s.queue.loop, s.checking with
    | .idle, false => some { s with checking := true }
    | _, _ => none
  | .immediate =>
    match s.checking, s.immediates with
    | true, e :: rest => some { s with immediates := rest, emitted := s.emitted ++ [e] }
    | _, _ => none
  | .checkEnd => if s.checking then some { s with checking := false } else none

/-- The queue as `node_async_call` uses it. -/
def Used (_ : Pipe) : Action → Prop
  | .queue (.setCapacity c) => c = 0
  | .queue (.clear _) => False
  | _ => True

instance (s : Pipe) (a : Action) : Decidable (Used s a) := by
  unfold Used
  split <;> infer_instance

def Posted.event (p : Posted) : Emitted := ⟨p.handler, p.task.event, p.task.params.map some⟩

def eventOf : Callback → String
  | .controller .onLoginSuccess => RTM_LOGIN_SUCESS
  | .controller (.onLoginFailure _) => RTM_LOGIN_FAILURE
  | .controller (.onLogout _) => RTM_LOGOUT
  | .controller (.onConnectionStateChanged _ _) => RTM_CONNECTION_STATE_CHANGED
  | .controller (.onRenewTokenResult _ _) => RTM_RENEW_TOKEN_RESULT
  | .controller .onTokenExpired => RTM_TOKEN_EXPIRED
  | .controller (.onSendMessageResult _ _) => RTM_SEND_MESSAGE_STATE
  | .controller (.onMessageReceivedFromPeer _ _) => RTM_MESSAGE_RECEIVED_FROM_PEER
  | .controller (.onQueryPeersOnlineStatusResult _ _ _) => RTM_QUERY_PEERS_RESULT
  | .channel .onJoinSuccess => RTM_CHANNEL_JOIN_SUCESS
  | .channel (.onJoinFailure _) => RTM_CHANNEL_JOIN_FAILURE
  | .channel (.onSendMessageResult _ _) => RTM_CHANNEL_SEND_MESSAGE_STATE
  | .channel (.onMessageReceived _ _) => RTM_CHANNEL_MESSAGE_RECEIVED
  | .channel (.onMemberJoined _) => RTM_CHANNEL_MEMBER_JOINED
  | .channel (.onMemberLeft _) => RTM_CHANNEL_MEMBER_LEFT
  | .channel (.onGetMembers _ _) => RTM_CHANNEL_GET_MEMBERS
  | .channel (.onLeave _) => RTM_CHANNEL_LEAVE_CHANNEL

def arityOf : Callback → ℕ
  | .controller .onLoginSuccess => 0
  | .controller (.onLoginFailure _) => 1
  | .controller (.onLogout _) => 1
  | .controller (.onConnectionStateChanged _ _) => 2
  | .controller (.onRenewTokenResult _ _) => 2
  | .controller .onTokenExpired => 0
  | .controller (.onSendMessageResult _ _) => 2
  | .controller (.onMessageReceivedFromPeer _ _) => 2
  | .controller (.onQueryPeersOnlineStatusResult _ _ _) => 3
  | .channel .onJoinSuccess => 0
  | .channel (.onJoinFailure _) => 1
  | .channel (.onSendMessageResult _ _) => 2
  | .channel (.onMessageReceived _ _) => 2
  | .channel (.onMemberJoined _) => 2
  | .channel (.onMemberLeft _) => 2
  | .channel (.onGetMembers _ _) => 2
  | .channel (.onLeave _) => 1

theorem post_shape {m : Memory} {cb : Callback} {t : Task} (h : cb.post m = some t) :
    t.event = eventOf cb ∧ t.params.length = arityOf cb := by
  rcases cb with c | c
  · cases c with
    | onRenewTokenResult token errorCode =>
      obtain ⟨bytes, -, ht⟩ := Option.bind_eq_some_iff.mp h
      obtain rfl := Option.some.inj ht
      exact ⟨rfl, rfl⟩
    | onMessageReceivedFromPeer peerId message =>
      obtain ⟨a, b, -, -, rfl⟩ := postStrings_eq h
      exact ⟨rfl, rfl⟩
    | onQueryPeersOnlineStatusResult requestId peersStatus errorCode =>
      obtain ⟨names, -, ht⟩ := Option.bind_eq_some_iff.mp h
      obtain rfl := Option.some.inj ht
      exact ⟨rfl, rfl⟩
    | _ =>
      obtain rfl := Option.some.inj h
      exact ⟨rfl, rfl⟩
  · cases c with
    | onMessageReceived userId message =>
      obtain ⟨a, b, -, -, rfl⟩ := postStrings_eq h
      exact ⟨rfl, rfl⟩
    | onMemberJoined member =>
      obtain ⟨a, b, -, -, rfl⟩ := postStrings_eq h
      exact ⟨rfl, rfl⟩
    | onMemberLeft member =>
      obtain ⟨a, b, -, -, rfl⟩ := postStrings_eq h
      exact ⟨rfl, rfl⟩
    | onGetMembers members errorCode =>
      obtain ⟨users, -, ht⟩ := Option.bind_eq_some_iff.mp h
      obtain rfl := Option.some.inj ht
      exact ⟨rfl, rfl⟩
    | _ =>
      obtain rfl := Option.some.inj h
      exact ⟨rfl, rfl⟩

theorem subscribed (object : ℕ) {m : Memory} {cb : Callback} {t : Task} (h : cb.post m = some t) :
    (subscribeEvents (kindOf cb) object).callbacks.lookup t.event =
      some ⟨t.params.length, t.event⟩ := by
  obtain ⟨hevent, hlength⟩ := post_shape h
  rw [hevent, hlength]
  rcases cb with c | c <;> cases c <;> rfl

theorem range_getElem? {β : Type*} (l : List β) :
    ((List.range l.length).map fun i => l[i]?) = l.map some := by
  apply List.ext_getElem?
  intro i
  by_cases hi : i < l.length
  · simp [hi]
  · simp [hi]

def Built (handlers : List Handler) : Prop :=
  ∀ i handler, handlers[i]? = some handler → handler = subscribeEvents handler.kind i

/-- Posted by a native callback of a handler of the callback's class. -/
def Genuine (handlers : List Handler) (p : Posted) : Prop :=
  ∃ handler m cb, handlers[p.handler]? = some handler ∧ handler.kind = kindOf cb ∧
    cb.post m = some p.task

/-- A native callback's task fires exactly its own event on its own object. -/
theorem runTask_event (handlers : List Handler) (p : Posted) (hb : Built handlers)
    (hg : Genuine handlers p) : runTask handlers p = [p.event] := by
  obtain ⟨handler, m, cb, hh, hk, hpost⟩ := hg
  have heq := hb _ _ hh
  have hobj : handler.object = p.handler := by rw [heq]; rfl
  have hlook : handler.callbacks.lookup p.task.event =
      some ⟨p.task.params.length, p.task.event⟩ := by
    rw [heq, hk]
    exact subscribed _ hpost
  simp only [runTask, hh, hlook, range_getElem?, hobj, Posted.event]

theorem genuine_append (handlers : List Handler) (new : Handler) (p : Posted)
    (h : Genuine handlers p) : Genuine (handlers ++ [new]) p := by
  obtain ⟨handler, m, cb, hh, hk⟩ := h
  have hlt := (List.getElem?_eq_some_iff.mp hh).1
  exact ⟨handler, m, cb, by rw [List.getElem?_append_left hlt, hh], hk⟩

theorem built_append (handlers : List Handler) (kind : Kind) (h : Built handlers) :
    Built (handlers ++ [subscribeEvents kind handlers.length]) := by
  intro i handler hi
  by_cases hlt : i < handlers.length
  · rw [List.getElem?_append_left hlt] at hi
    exact h i handler hi
  · rw [List.getElem?_append_right (by omega), List.getElem?_singleton] at hi
    by_cases h0 : i - handlers.length = 0
    · obtain rfl : i = handlers.length := by omega
      simp only [Nat.sub_self, ↓reduceIte, Option.some.injEq] at hi
      rw [← hi]
      rfl
    · simp [h0] at hi

/-- What relates the two queues and the running task: everything executed is
emitted or waits in the immediate queue, in order. -/
structure Piped (s : Pipe) : Prop where
  queue : Reach AsyncQueue.step AsyncQueue.Plain AsyncQueue.init s.queue
  built : Built s.handlers
  genuine : ∀ p, s.queue.Carries p → Genuine s.handlers p
  fired : s.emitted ++ s.immediates = s.queue.executed.map fun e => e.elem.event

theorem init_piped : Piped init := by
  refine ⟨Reach.refl _, ?_, ?_, rfl⟩
  · intro i handler h
    simp [init] at h
  · intro p h
    simp [init, AsyncQueue.State.Carries, AsyncQueue.init] at h

theorem queueStep_piped {s t : Pipe} {a : AsyncQueue.Action Posted}
    (h : queueStep s a = some t) (hs : Piped s) (hplain : AsyncQueue.Plain s.queue a)
    (hcall : ∀ caller p, a = .call caller p → Genuine s.handlers p) : Piped t := by
  obtain ⟨q, hq, rfl⟩ := Option.map_eq_some_iff.mp h
  refine ⟨hs.queue.tail hplain hq, hs.built, ?_, ?_⟩
  · intro p hp
    rcases AsyncQueue.step_carries hq hp with hp | ⟨caller, ha⟩
    · exact hs.genuine p hp
    · exact hcall caller p ha
  · rcases AsyncQueue.step_executed hq with ⟨e, rfl, hl, hexec⟩ | ⟨hne, hexec⟩
    · -- the callback returns: its closure has fired the event of the element
      have hgen := hs.genuine e.elem
        (Or.inr ⟨e, AsyncQueue.current_pushed hs.queue.weaken hl, rfl⟩)
      have hrun := runTask_event s.handlers e.elem hs.built hgen
      simp [fired, hl, hrun, hexec, ← hs.fired]
    · have hnone : fired s a = [] := by cases a <;> first | rfl | exact absurd rfl hne
      simp [hnone, hexec, hs.fired]

theorem step_piped (s : Pipe) (a : Action) (t : Pipe) (hs : Piped s) (ha : Used s a)
    (h : step s a = some t) : Piped t := by
  cases a with
  | construct kind =>
    obtain rfl := Option.some.inj h
    exact ⟨hs.queue, built_append s.handlers kind hs.built,
      fun p hp => genuine_append s.handlers _ p (hs.genuine p hp), hs.fired⟩
  | callback caller i m cb =>
    simp only [step] at h
    split at h
    · rename_i handler task hh hpost
      split at h
      · rename_i hk
        refine queueStep_piped h hs trivial fun caller' p hp => ?_
        obtain ⟨-, rfl⟩ : caller = caller' ∧ (⟨i, task⟩ : Posted) = p := by simpa using hp
        exact ⟨handler, m, cb, hh, hk, hpost⟩
      · cases h
    · cases h
  | queue a =>
    cases a with
    | call caller p => cases h
    | setCapacity c => exact queueStep_piped h hs ha (by simp)
    | clear a => exact ha.elim
    | wake =>
      simp only [step] at h
      split at h
      · cases h
      · exact queueStep_piped h hs trivial (by simp)
    | _ => exact queueStep_piped h hs trivial (by simp)
  | checkBegin =>
    simp only [step] at h
    split at h
    · obtain rfl := Option.some.inj h
      exact ⟨hs.queue, hs.built, hs.genuine, hs.fired⟩
    · cases h
  | immediate =>
    simp only [step] at h
    split at h
    · rename_i e rest hc hi
      obtain rfl := Option.some.inj h
      exact ⟨hs.queue, hs.built, hs.genuine, by simpa [hi] using hs.fired⟩
    · cases h
  | checkEnd =>
    simp only [step] at h
    split at h
    · obtain rfl := Option.some.inj h
      exact ⟨hs.queue, hs.built, hs.genuine, hs.fired⟩
    · cases h

theorem reach_piped {s : Pipe} (h : Reach step Used init s) : Piped s :=
  h.invariant init_piped step_piped

theorem pipe_cases {s t : Pipe} {a : Action} (hs : step s a = some t) :
    (∃ kind, a = .construct kind ∧
      t = { s with handlers := s.handlers ++ [subscribeEvents kind s.handlers.length] }) ∨
    (∃ caller h m cb task, a = .callback caller h m cb ∧ cb.post m = some task ∧
      queueStep s (.call caller ⟨h, task⟩) = some t) ∨
    (∃ b, a = .queue b ∧ (∀ caller p, b ≠ .call caller p) ∧ queueStep s b = some t) ∨
    (∃ checking, (a = .checkBegin ∨ a = .checkEnd) ∧ t = { s with checking := checking }) ∨
    (∃ e rest, a = .immediate ∧ s.immediates = e :: rest ∧
      t = { s with immediates := rest, emitted := s.emitted ++ [e] }) := by
  cases a with
  | construct kind => exact Or.inl ⟨kind, rfl, (Option.some.inj hs).symm⟩
  | callback caller h m cb =>
    right; left
    simp only [step] at hs
    split at hs
    · rename_i handler task hh hpost
      split at hs
      · exact ⟨caller, h, m, cb, task, rfl, hpost, hs⟩
      · cases hs
    · cases hs
  | queue b =>
    right; right; left
    cases b with
    | call caller p => cases hs
    | wake =>
      simp only [step] at hs
      split at hs
      · cases hs
      · exact ⟨.wake, rfl, by simp, hs⟩
    | _ => exact ⟨_, rfl, by simp, hs⟩
  | checkBegin =>
    right; right; right; left
    simp only [step] at hs
    split at hs
    · exact ⟨true, Or.inl rfl, (Option.some.inj hs).symm⟩
    · cases hs
  | checkEnd =>
    right; right; right; left
    simp only [step] at hs
    split at hs
    · exact ⟨false, Or.inr rfl, (Option.some.inj hs).symm⟩
    · cases hs
  | immediate =>
    right; right; right; right
    simp only [step] at hs
    split at hs
    · rename_i e rest hc hi
      exact ⟨e, rest, rfl, hi, (Option.some.inj hs).symm⟩
    · cases hs

theorem queueStep_inv {s t : Pipe} {b : AsyncQueue.Action Posted} (h : queueStep s b = some t) :
    AsyncQueue.step s.queue b = some t.queue ∧ t.emitted = s.emitted := by
  obtain ⟨q, hq, rfl⟩ := Option.map_eq_some_iff.mp h
  exact ⟨hq, rfl⟩

/-- What all objects have emitted is a prefix of the events of the tasks in push
order, and all of them once the queues are at rest. -/
theorem emitted_pushed {s : Pipe} (h : Reach step Used init s) :
    (s.emitted <+: s.queue.pushed.map fun e => e.elem.event) ∧
    ((∀ a, s.queue.pcs a = .idle) → s.queue.pending = false → s.queue.loop = .idle →
      s.immediates = [] → s.emitted = s.queue.pushed.map fun e => e.elem.event) := by
  have hp := reach_piped h
  constructor
  · have hexec := (AsyncQueue.reach_kept hp.queue.weaken).executed
    have hall := AsyncQueue.handed_then_queued hp.queue
    have hpre : s.queue.executed <+: s.queue.pushed :=
      ⟨s.queue.loop.current ++ s.queue.q, by rw [← List.append_assoc, hexec, hall]⟩
    have hmap := hpre.map fun e => e.elem.event
    rw [← hp.fired] at hmap
    exact (List.prefix_append s.emitted s.immediates).trans hmap
  · intro hpcs hpend hl hi
    have hdone := AsyncQueue.rest_executed hp.queue hpcs hpend hl
    rw [← hdone, ← hp.fired, hi, List.append_nil]

end AgoraRtm.Delivery
