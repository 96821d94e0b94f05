import AgoraRtm.Closing
import AgoraRtm.Delivery

/-!
# The native callbacks behind the emitted events

The pipe beside a record of the SDK's calls: which handler was called, how, and
over which memory, in the order in which the callers push. No step reads the
record, and nothing in it comes from a task. The event of a call is stated from
the call's own parameters.
-/

set_option autoImplicit false

namespace AgoraRtm.Delivery
open Runs NativeEvents

structure Call where
  handler : ℕ
  memory : Memory
  callback : Callback

def heldStrings (m : Memory) (pointers : List Ptr) : Option (List Param) :=
  pointers.mapM fun p => (cString m p).map .string

/-- The parameters of a callback in the order and in the types in which its event
has them, a string as its buffer holds it during the call. -/
def given (m : Memory) : Callback → Option (List Param)
  | .controller .onLoginSuccess => some []
  | .controller (.onLoginFailure errorCode) => some [.int32 errorCode]
  | .controller (.onLogout errorCode) => some [.int32 errorCode]
  | .controller (.onConnectionStateChanged state reason) => some [.int32 state, .int32 reason]
  | .controller (.onRenewTokenResult token errorCode) =>
    (cString m token).map fun token => [.string token, .int32 errorCode]
  | .controller .onTokenExpired => some []
  | .controller (.onSendMessageResult messageId state) =>
    some [.int32 (messageId.setWidth 32), .int32 state]
  | .controller (.onMessageReceivedFromPeer peerId message) =>
    heldStrings m [peerId, message.getText]
  | .controller (.onQueryPeersOnlineStatusResult requestId peersStatus errorCode) =>
    some [.number requestId, .uint32 errorCode, .peers peersStatus]
  | .channel .onJoinSuccess => some []
  | .channel (.onJoinFailure errorCode) => some [.int32 errorCode]
  | .channel (.onSendMessageResult messageId state) => some [.uint64 messageId, .int32 state]
  | .channel (.onMessageReceived userId message) => heldStrings m [userId, message.getText]
  | .channel (.onMemberJoined member) => heldStrings m [member.getUserId, member.getChannelId]
  | .channel (.onMemberLeft member) => heldStrings m [member.getUserId, member.getChannelId]
  | .channel (.onGetMembers members errorCode) =>
    (members.mapM fun member => cString m member.getUserId).map fun users =>
      [.strings users, .int32 errorCode]
  | .channel (.onLeave errorCode) => some [.int32 errorCode]

/-- The event of a call: on the object that was constructed with the handler, and
so has its number, under the name of the callback and with what the callback was
given. -/
def Call.event (c : Call) : Option Emitted :=
  (given c.memory c.callback).map fun params =>
    ⟨c.handler, eventOf c.callback, params.map some⟩

def Call.posted (c : Call) : Option Posted :=
  (c.callback.post c.memory).map fun task => ⟨c.handler, task⟩

structure Logged where
  pipe : Pipe
  /-- The latest call of each caller. -/
  calling : AsyncQueue.Actor → Option Call
  /-- The calls that have pushed their task, in that order. -/
  called : List Call

namespace Logged

def init : Logged := ⟨Delivery.init, fun _ => none, []⟩

def note (L : Logged) : Action → Logged
  | .callback caller h m cb =>
    { L with calling := Function.update L.calling caller (some ⟨h, m, cb⟩) }
  | .queue (.push caller) => { L with called := L.called ++ (L.calling caller).toList }
  | _ => L

def step (L : Logged) (a : Action) : Option Logged :=
  (Delivery.step L.pipe a).map fun s => { L.note a with pipe := s }

def Used (L : Logged) (a : Action) : Prop := Delivery.Used L.pipe a

instance (L : Logged) (a : Action) : Decidable (Used L a) :=
  inferInstanceAs (Decidable (Delivery.Used _ _))

end Logged

theorem postStrings_given {m : Memory} {event : String} {p q : Ptr} {t : Task}
    (h : postStrings m event p q = some t) : heldStrings m [p, q] = some t.params := by
  obtain ⟨a, b, ha, hb, rfl⟩ := postStrings_eq h
  simp [heldStrings, ha, hb]

/-- A callback's task carries what the callback was given, all of it. -/
theorem post_given {m : Memory} {cb : Callback} {t : Task} (h : cb.post m = some t) :
    given m cb = some t.params := by
  rcases cb with c | c
  · cases c with
    | onRenewTokenResult token errorCode =>
      obtain ⟨bytes, hb, ht⟩ := Option.bind_eq_some_iff.mp h
      obtain rfl := Option.some.inj ht
      simp [given, hb]
    | onMessageReceivedFromPeer peerId message => exact postStrings_given h
    | onQueryPeersOnlineStatusResult requestId peersStatus errorCode =>
      obtain ⟨names, -, ht⟩ := Option.bind_eq_some_iff.mp h
      obtain rfl := Option.some.inj ht
      rfl
    | _ =>
      obtain rfl := Option.some.inj h
      rfl
  · cases c with
    | onMessageReceived userId message => exact postStrings_given h
    | onMemberJoined member => exact postStrings_given h
    | onMemberLeft member => exact postStrings_given h
    | onGetMembers members errorCode =>
      obtain ⟨users, hu, ht⟩ := Option.bind_eq_some_iff.mp h
      obtain rfl := Option.some.inj ht
      simp [given, members_names members users hu]
    | _ =>
      obtain rfl := Option.some.inj h
      rfl

theorem posted_event {c : Call} {p : Posted} (h : c.posted = some p) :
    c.event = some p.event := by
  obtain ⟨task, hpost, rfl⟩ := Option.map_eq_some_iff.mp h
  simp [Call.event, Posted.event, post_given hpost, (post_shape hpost).1]

/-- What callers carry, and what they have pushed, are the tasks of the calls in
the record. -/
structure Logs (L : Logged) : Prop where
  carried : ∀ a p, (L.pipe.queue.pcs a).carried = some p → (L.calling a).bind Call.posted = some p
  called : L.called.map Call.posted = L.pipe.queue.pushed.map fun e => some e.elem

theorem init_logs : Logs Logged.init where
  carried a p h := by cases h
  called := rfl

section Steps

variable {L M : Logged} {s : Pipe}

theorem note_queue (b : AsyncQueue.Action Posted) (hb : ∀ a, b ≠ .push a) :
    L.note (.queue b) = L := by
  cases b with
  | push a => exact absurd rfl (hb a)
  | _ => rfl

theorem callback_logs {caller : AsyncQueue.Actor} {h : ℕ} {m : Memory} {cb : Callback} {task : Task}
    (hL : Logs L) (hpost : cb.post m = some task)
    (hs : queueStep L.pipe (.call caller ⟨h, task⟩) = some s) :
    Logs { L.note (.callback caller h m cb) with pipe := s } := by
  obtain ⟨hq, -⟩ := queueStep_inv hs
  obtain ⟨hidle, hcases⟩ := AsyncQueue.call_cases hq
  constructor
  · intro a p ha
    by_cases hcaller : a = caller
    · subst hcaller
      have hposted : Call.posted ⟨h, m, cb⟩ = some ⟨h, task⟩ := by simp [Call.posted, hpost]
      rcases hcases with ⟨-, hsame⟩ | ⟨-, hset⟩
      · -- a closed queue takes nothing, and the caller carries nothing
        simp [hsame, hidle, AsyncQueue.Pc.carried] at ha
      · obtain rfl : (⟨h, task⟩ : Posted) = p := by
          simpa [hset, AsyncQueue.Pc.carried] using ha
        simpa [Logged.note] using hposted
    · have hold : (L.pipe.queue.pcs a).carried = some p := by
        rcases hcases with ⟨-, hsame⟩ | ⟨-, hset⟩
        · simpa [hsame] using ha
        · simpa [hset, AsyncQueue.setPc_other _ _ _ _ hcaller] using ha
      simpa [Logged.note, Function.update_of_ne hcaller] using hL.carried a p hold
  · have hpushed : s.queue.pushed = L.pipe.queue.pushed := by
      rcases hcases with ⟨-, hsame⟩ | ⟨-, hset⟩
      · rw [hsame]
      · rw [hset]
        rfl
    simpa [Logged.note, hpushed] using hL.called

theorem queue_logs {b : AsyncQueue.Action Posted} (hL : Logs L) (hb : ∀ a p, b ≠ .call a p)
    (hs : queueStep L.pipe b = some s) : Logs { L.note (.queue b) with pipe := s } := by
  obtain ⟨hq, -⟩ := queueStep_inv hs
  rcases AsyncQueue.step_carried hq with ⟨a, p, rfl⟩ | ⟨a, p, rfl, hp, hpushed, hnone, hothers⟩ |
    ⟨hpushed, hcarried⟩
  · exact absurd rfl (hb a p)
  · have hposted := hL.carried a p hp
    obtain ⟨c, hc, hcp⟩ := Option.bind_eq_some_iff.mp hposted
    constructor
    · intro d x hd
      by_cases hda : d = a
      · simp [hda, hnone] at hd
      · exact hL.carried d x (by rw [← hothers d hda]; exact hd)
    · simp [Logged.note, hc, hcp, hpushed, hL.called]
  · have hnote : L.note (.queue b) = L := by
      apply note_queue
      rintro a rfl
      obtain ⟨p, -, hgrown, -⟩ := AsyncQueue.push_carried hq
      simp [hpushed] at hgrown
    rw [hnote]
    exact ⟨fun a p ha => hL.carried a p (by rw [← hcarried a]; exact ha),
      by simpa [hpushed] using hL.called⟩

theorem step_logs (L : Logged) (a : Action) (M : Logged) (hL : Logs L) (_ : Logged.Used L a)
    (hs : L.step a = some M) : Logs M := by
  obtain ⟨s, hstep, rfl⟩ := Option.map_eq_some_iff.mp hs
  rcases pipe_cases hstep with ⟨kind, rfl, rfl⟩ | ⟨caller, h, m, cb, task, rfl, hpost, hq⟩ |
    ⟨b, rfl, hb, hq⟩ | ⟨checking, rfl | rfl, rfl⟩ | ⟨e, rest, rfl, -, rfl⟩
  · exact ⟨hL.carried, hL.called⟩
  · exact callback_logs hL hpost hq
  · exact queue_logs hL hb hq
  all_goals exact ⟨hL.carried, hL.called⟩

end Steps

theorem Logs.events {L : Logged} (h : Logs L) :
    L.called.map Call.event = (L.pipe.queue.pushed.map fun e => e.elem.event).map some := by
  apply List.ext_getElem?
  intro i
  have hi : (L.called.map Call.posted)[i]? =
      (L.pipe.queue.pushed.map fun e => some e.elem)[i]? := by rw [h.called]
  simp only [List.getElem?_map] at hi ⊢
  cases hc : L.called[i]? with
  | none => cases hp : L.pipe.queue.pushed[i]? <;> simp_all
  | some c =>
    cases hp : L.pipe.queue.pushed[i]? with
    | none => simp [hc, hp] at hi
    | some e =>
      have hposted : c.posted = some e.elem := by simpa [hc, hp] using hi
      simp [posted_event hposted]

/-- Ordered, exactly-once delivery across both queues: every push is of one native
call; what all objects have emitted is at every moment a prefix of the events of
these calls in push order, each on the object of the handler that was called and
with what the call was given; and once the queues are at rest it is all of them. -/
theorem delivery_exactly_once (L : Logged) (h : Reach Logged.step Logged.Used Logged.init L) :
    L.called.length = L.pipe.queue.pushed.length ∧
    (L.pipe.emitted.map some <+: L.called.map Call.event) ∧
    ((∀ a, L.pipe.queue.pcs a = .idle) → L.pipe.queue.pending = false →
      L.pipe.queue.loop = .idle → L.pipe.immediates = [] →
      L.pipe.emitted.map some = L.called.map Call.event) := by
  have hlogs : Logs L := h.invariant init_logs step_logs
  have hpipe : Reach step Used init L.pipe := by
    apply h.refine (I := fun _ => True) Logged.pipe trivial (fun _ _ _ _ _ _ => trivial)
    intro L a M _ ha hs
    obtain ⟨s, hstep, rfl⟩ := Option.map_eq_some_iff.mp hs
    exact Reach.single ha hstep
  obtain ⟨hfront, hrest⟩ := emitted_pushed hpipe
  refine ⟨by simpa using congrArg List.length hlogs.called, ?_, ?_⟩
  · rw [hlogs.events]
    exact hfront.map some
  · intro hpcs hpend hl hi
    rw [hlogs.events, hrest hpcs hpend hl hi]

-- A controller and a channel; two SDK threads push while the loop drains.
def sharedRun : List Action :=
  [.construct .controller, .construct .channel,
    .callback (.producer 0) 1 (fun _ => none) (.channel .onJoinSuccess),
    .callback (.producer 1) 0 (fun _ => none) (.controller (.onLogout 3)),
    .queue (.enter (.producer 0)), .queue (.push (.producer 0)), .queue (.send (.producer 0)),
    .queue .wake, .queue (.enter (.producer 1)), .queue (.push (.producer 1)), .queue .acquire,
    .queue .test, .queue .finish, .queue .acquire, .queue .test, .queue .finish,
    .queue .acquire, .queue .test, .queue .leave, .checkBegin, .immediate]

theorem delivery_exactly_once_shared :
    (final Logged.step Logged.Used Logged.init sharedRun).pipe.emitted = [⟨1, "JoinSuccess", []⟩] ∧
    ((final Logged.step Logged.Used Logged.init sharedRun).pipe.emitted.map some <+:
      [some ⟨1, "JoinSuccess", []⟩, some ⟨0, "Logout", [some (.int32 3)]⟩]) :=
  ⟨rfl, (delivery_exactly_once _ (reach_final rfl)).2.1⟩

end AgoraRtm.Delivery
