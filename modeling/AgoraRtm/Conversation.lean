import AgoraRtm.Delivery
import AgoraRtm.Closing
import AgoraRtm.EntryPoints
import AgoraRtm.StringRoundTrip

/-!
# A conversation

The text of a message goes from JavaScript into a buffer of its own, from there
to the SDK, with the SDK to the other side, out of SDK memory into a task, and
through both queues to the listeners. The SDK is taken to carry each message whose
send returns 0, in the order of the sends, to one thread of the receiving process,
and to hand over there what a reader of C strings finds in the buffer. There is no
buffer for an empty text, nor where memory is out: the SDK then gets a null text,
and what it makes of that is left open. All else in the receiving process goes on
beside the conversation.
-/

set_option autoImplicit false

namespace AgoraRtm.Conversation
open Runs NodeApi EntryPoints NativeEvents Delivery

variable {σ : Type}

def sendText (env : Env σ) (peer : Value) (units : List UInt16) : Kind → Run Result
  | .controller => EntryPoints.sendMessageToPeer env [peer, .string units]
  | .channel => EntryPoints.sendMessage env [.string units]

def textArgument : Kind → ℕ
  | .controller => 1
  | .channel => 0

def received (sender : Ptr) (message : IMessage) : Kind → Callback
  | .controller => .controller (.onMessageReceivedFromPeer sender message)
  | .channel => .channel (.onMessageReceived sender message)

def messageEvent : Kind → String
  | .controller => RTM_MESSAGE_RECEIVED_FROM_PEER
  | .channel => RTM_CHANNEL_MESSAGE_RECEIVED

/-- The texts that leave with a trace: a send that the SDK accepts takes the text
last set. -/
def outgoing (env : Env σ) : CharPtr → List Event → List CharPtr
  | _, [] => []
  | _, .call (.setText p) :: events => outgoing env p events
  | text, .call .sendMessage :: events =>
    if env.status .sendMessage = 0 then text :: outgoing env text events
    else outgoing env text events
  | text, .call (.sendMessageToPeer peerId) :: events =>
    if env.status (.sendMessageToPeer peerId) = 0 then text :: outgoing env text events
    else outgoing env text events
  | text, _ :: events => outgoing env text events

/-- A message that the SDK has accepted: the text that JavaScript sent, whether
there was memory for its buffer, and what the SDK hands over, if anything, where
the text it was given is null. -/
structure Sent where
  units : List UInt16
  allocated : Bool
  nullText : Option Block

def handedOver (nullText : Option Block) : CharPtr → Option Block
  | some block => some (block.takeWhile (· ≠ 0))
  | none => nullText

structure Talk where
  sent : List Sent
  transit : List Block
  pipe : Pipe

def init : Talk := ⟨[], [], Delivery.init⟩

inductive Action (σ : Type) where
  | send (env : Env σ) (peer : Value) (units : List UInt16) (nullText : Option Block)
  | arrive (handler : ℕ) (m : Memory) (sender : Ptr) (message : IMessage)
  | pipe (a : Delivery.Action)

def step (kind : Kind) (thread : ℕ) (s : Talk) : Action σ → Option Talk
  | .send env peer units nullText =>
    let texts := outgoing env none (sendText env peer units kind).events
    some { s with
      sent := s.sent ++ texts.map fun _ => ⟨units, env.calloc (textArgument kind), nullText⟩
      transit := s.transit ++ texts.filterMap (handedOver nullText) }
  | .arrive handler m sender message =>
    match s.transit with
    | [] => none
    | text :: rest =>
      if cString m message.getText = some text then
        (Delivery.step s.pipe (.callback (.producer thread) handler m
          (received sender message kind))).map fun p => { s with transit := rest, pipe := p }
      else none
  | .pipe a => (Delivery.step s.pipe a).map fun p => { s with pipe := p }

/-- Messages of the kind arrive from the conversation only, and the queue is
used as `node_async_call` uses it. -/
def Undisturbed (kind : Kind) (s : Talk) : Action σ → Prop
  | .pipe (.callback _ _ _ cb) => eventOf cb ≠ messageEvent kind
  | .pipe (.queue .close) => False
  | .pipe a => Used s.pipe a
  | _ => True

instance (kind : Kind) (s : Talk) (a : Action σ) : Decidable (Undisturbed kind s a) := by
  unfold Undisturbed
  split <;> infer_instance

def heard (kind : Kind) (later : Memory) (e : Emitted) : Option (List UInt16) :=
  if e.event = messageEvent kind then
    match e.args with
    | [_, some text] =>
      match text.create later with
      | some (.scalar (.string units)) => some units
      | _ => none
    | _ => none
  else none

def carriedText (kind : Kind) (p : Posted) : Option Block :=
  if p.task.event = messageEvent kind then
    match p.task.params with
    | [_, .string text] => some text
    | _ => none
  else none

def Sent.hasText (x : Sent) : Bool := x.units ≠ [] && x.allocated

/-- What the listeners are to hear of a message: its text up to the first U+0000,
with U+FFFD for each lone surrogate; of a null text what the SDK makes of it. -/
def Sent.arrives (x : Sent) : Option (List UInt16) :=
  if x.hasText then some (returned x.units) else x.nullText.map Utf8.decode

def Sent.wire (x : Sent) : Option Block :=
  if x.hasText then some (Utf8.encode (x.units.takeWhile (· ≠ 0))) else x.nullText

theorem Sent.decode_wire (x : Sent) : x.wire.map Utf8.decode = x.arrives := by
  unfold wire arrives
  split
  · rw [Option.map_some, Utf8.decode_encode, returned]
  · rfl

theorem Sent.wire_extracted (x : Sent) :
    handedOver x.nullText (extracted x.allocated (.string x.units)) = x.wire := by
  unfold wire hasText
  cases hb : extracted x.allocated (.string x.units) with
  | some block =>
    obtain ⟨hcalloc, units, hunits, hne, rfl⟩ := (extracted_some _ _ _).mp hb
    obtain rfl := Value.string.inj hunits
    rw [if_pos (by simp [hne, hcalloc]), handedOver, Utf8.cut_encode]
  | none =>
    have hnone : ¬ (x.units ≠ [] ∧ x.allocated = true) := by
      rintro ⟨hne, hcalloc⟩
      have hsome := (extracted_some x.allocated (.string x.units) _).mpr
        ⟨hcalloc, x.units, rfl, hne, rfl⟩
      rw [hb] at hsome
      cases hsome
    rw [if_neg (by simpa using hnone), handedOver]

section Sending

variable (env : Env σ) (peer : Value) (units : List UInt16)

theorem sendText_outgoing (kind : Kind) :
    outgoing env none (sendText env peer units kind).events = [] ∨
    outgoing env none (sendText env peer units kind).events =
      [extracted (env.calloc (textArgument kind)) (.string units)] := by
  cases kind with
  | controller =>
    simp only [sendText, EntryPoints.sendMessageToPeer, Env.nodeString_eq, pure_bind,
      Env.invoke_eq]
    cases env.unwrapped with
    | false => exact Or.inl rfl
    | true =>
      cases env.createsMessage with
      | false => exact Or.inl rfl
      | true =>
        by_cases hstatus : env.status (.sendMessageToPeer
            (extracted (env.calloc 0) (arg [peer, .string units] 0))) = 0
        · exact Or.inr (if_pos hstatus)
        · exact Or.inl (if_neg hstatus)
  | channel =>
    simp only [sendText, EntryPoints.sendMessage, Env.nodeString_eq, pure_bind, Env.invoke_eq]
    cases env.unwrapped with
    | false => exact Or.inl rfl
    | true =>
      cases env.createsMessage with
      | false => exact Or.inl rfl
      | true =>
        by_cases hstatus : env.status .sendMessage = 0
        · exact Or.inr (if_pos hstatus)
        · exact Or.inl (if_neg hstatus)

end Sending

theorem heard_event (kind : Kind) (later : Memory) (p : Posted) :
    heard kind later p.event = (carriedText kind p).map Utf8.decode := by
  obtain ⟨handler, event, params⟩ := p
  by_cases he : event = messageEvent kind
  · have he' : (Posted.event ⟨handler, ⟨event, params⟩⟩).event = messageEvent kind := he
    rw [heard, if_pos he', carriedText, if_pos he]
    match params with
    | [] => rfl
    | [_] => rfl
    | _ :: _ :: _ :: _ => simp [Posted.event]
    | [_, text] =>
      cases text with
      | peers status =>
        simp only [Posted.event, List.map, Param.create]
        cases status.mapM (peerStatus later) <;> rfl
      | _ => rfl
  · have he' : (Posted.event ⟨handler, ⟨event, params⟩⟩).event ≠ messageEvent kind := he
    rw [heard, if_neg he', carriedText, if_neg he]
    rfl

/-- Nobody but the thread of the conversation carries a message, and what was
pushed, what the thread carries and what is in transit are the sent texts. -/
structure Ordered (kind : Kind) (thread : ℕ) (s : Talk) : Prop where
  piped : Piped s.pipe
  opened : s.pipe.queue.closed = false
  aside : ∀ a, a ≠ .producer thread → ∀ p ∈ (s.pipe.queue.pcs a).carried, carriedText kind p = none
  texts : (s.pipe.queue.pushed.filterMap fun e => carriedText kind e.elem) ++
    (s.pipe.queue.pcs (.producer thread)).carried.toList.filterMap (carriedText kind) ++
    s.transit = s.sent.filterMap Sent.wire

theorem init_ordered (kind : Kind) (thread : ℕ) : Ordered kind thread init where
  piped := init_piped
  opened := rfl
  aside _ _ _ h := by cases h
  texts := rfl

section Steps

variable {kind : Kind} {thread : ℕ} {s : Talk}

theorem Ordered.queueStep (h : Ordered kind thread s) {b : AsyncQueue.Action Posted}
    {q : AsyncQueue.State Posted} (hb : ∀ caller p, b ≠ .call caller p)
    (hq : AsyncQueue.step s.pipe.queue b = some q) :
    (∀ a, a ≠ .producer thread → ∀ p ∈ (q.pcs a).carried, carriedText kind p = none) ∧
    (q.pushed.filterMap fun e => carriedText kind e.elem) ++
      (q.pcs (.producer thread)).carried.toList.filterMap (carriedText kind) ++ s.transit =
      s.sent.filterMap Sent.wire := by
  rcases AsyncQueue.step_carried hq with ⟨a, e, rfl⟩ | ⟨a, e, -, ha, hpushed, hnone, hother⟩ |
    ⟨hpushed, hsame⟩
  · exact absurd rfl (hb a e)
  · constructor
    · intro c hc p hp
      by_cases hca : c = a
      · subst hca
        rw [hnone] at hp
        cases hp
      · rw [hother c hca] at hp
        exact h.aside c hc p hp
    · rw [← h.texts, hpushed, List.filterMap_append]
      by_cases hat : a = .producer thread
      · subst hat
        rw [hnone, ha]
        simp [List.filterMap_cons]
      · have htext := h.aside a hat e (by rw [ha]; rfl)
        rw [hother _ (Ne.symm hat)]
        simp [htext]
  · constructor
    · intro c hc p hp
      rw [hsame c] at hp
      exact h.aside c hc p hp
    · rw [← h.texts, hpushed, hsame]

theorem Ordered.call (h : Ordered kind thread s) {caller : AsyncQueue.Actor} {p : Posted}
    {q : AsyncQueue.State Posted}
    (hq : AsyncQueue.step s.pipe.queue (.call caller p) = some q) :
    s.pipe.queue.pcs caller = .idle ∧ q = s.pipe.queue.setPc caller (.checked p) := by
  obtain ⟨hidle, hopen⟩ := AsyncQueue.call_cases hq
  rcases hopen with ⟨hclosed, -⟩ | ⟨-, hq⟩
  · rw [h.opened] at hclosed
    cases hclosed
  · exact ⟨hidle, hq⟩

theorem carriedText_other {m : Memory} {cb : Callback} {h : ℕ} {task : Task}
    (hpost : cb.post m = some task) (hne : eventOf cb ≠ messageEvent kind) :
    carriedText kind ⟨h, task⟩ = none := by
  rw [carriedText, if_neg]
  rw [(post_shape hpost).1]
  exact hne

theorem carriedText_received {m : Memory} {h : ℕ} {sender : Ptr} {message : IMessage}
    {task : Task} {text : Block} (hpost : (received sender message kind).post m = some task)
    (htext : cString m message.getText = some text) : carriedText kind ⟨h, task⟩ = some text := by
  cases kind with
  | controller =>
    obtain ⟨a, b, -, hb, rfl⟩ := postStrings_eq hpost
    obtain rfl : b = text := by simpa [hb] using htext
    rfl
  | channel =>
    obtain ⟨a, b, -, hb, rfl⟩ := postStrings_eq hpost
    obtain rfl : b = text := by simpa [hb] using htext
    rfl

theorem Ordered.pipe (h : Ordered kind thread s) {a : Delivery.Action} {p : Pipe}
    (ha : Undisturbed kind s (.pipe a : Action σ)) (hs : Delivery.step s.pipe a = some p) :
    Ordered kind thread { s with pipe := p } := by
  have hused : Used s.pipe a := by
    cases a with
    | queue b => cases b <;> first | exact ha | trivial
    | _ => trivial
  have hpiped := step_piped s.pipe a p h.piped hused hs
  rcases pipe_cases hs with ⟨kind, -, rfl⟩ | ⟨caller, i, m, cb, task, rfl, hpost, hq⟩ |
    ⟨b, rfl, hb, hq⟩ | ⟨checking, -, rfl⟩ | ⟨e, rest, -, -, rfl⟩
  · exact ⟨hpiped, h.opened, h.aside, h.texts⟩
  · have hnone := carriedText_other (h := i) hpost ha
    obtain ⟨hidle, hq⟩ := h.call (queueStep_inv hq).1
    refine ⟨hpiped, ?_, ?_, ?_⟩
    · rw [hq]
      exact h.opened
    · intro c hc x hx
      rw [hq] at hx
      by_cases hcc : c = caller
      · subst hcc
        obtain rfl : _ = x := by simpa [AsyncQueue.Pc.carried] using hx
        exact hnone
      · rw [AsyncQueue.setPc_other _ _ _ _ hcc] at hx
        exact h.aside c hc x hx
    · have htexts := h.texts
      rw [hq]
      by_cases hct : caller = .producer thread
      · subst hct
        rw [hidle] at htexts
        simpa [AsyncQueue.Pc.carried, hnone] using htexts
      · rw [AsyncQueue.setPc_other _ _ _ _ (Ne.symm hct)]
        exact htexts
  · have hq := (queueStep_inv hq).1
    obtain ⟨haside, htexts⟩ := h.queueStep hb hq
    refine ⟨hpiped, ?_, haside, htexts⟩
    rcases AsyncQueue.step_closed hq with hclosed | ⟨rfl, -⟩
    · rw [hclosed]
      exact h.opened
    · exact ha.elim
  · exact ⟨hpiped, h.opened, h.aside, h.texts⟩
  · exact ⟨hpiped, h.opened, h.aside, h.texts⟩

theorem step_ordered (s : Talk) (a : Action σ) (t : Talk) (h : Ordered kind thread s)
    (ha : Undisturbed kind s a) (hs : step kind thread s a = some t) : Ordered kind thread t := by
  cases a with
  | send env peer units nullText =>
    obtain rfl := Option.some.inj hs
    refine ⟨h.piped, h.opened, h.aside, ?_⟩
    rw [← List.append_assoc, h.texts, List.filterMap_append]
    rcases sendText_outgoing env peer units kind with hnil | hone
    · simp [hnil]
    · have hwire := Sent.wire_extracted ⟨units, env.calloc (textArgument kind), nullText⟩
      simp only at hwire
      rw [hone]
      simp [List.filterMap_cons, hwire]
  | arrive i m sender message =>
    simp only [step] at hs
    split at hs
    · cases hs
    · rename_i text rest htransit
      split at hs
      · rename_i htext
        obtain ⟨p, hp, rfl⟩ := Option.map_eq_some_iff.mp hs
        have hpiped := step_piped s.pipe _ p h.piped (by trivial) hp
        rcases pipe_cases hp with ⟨k, he, -⟩ | ⟨caller, i', m', cb, task, he, hpost, hq⟩ |
          ⟨b, he, -⟩ | ⟨checking, he, -⟩ | ⟨e, rest, he, -⟩
        · cases he
        · obtain ⟨rfl, rfl, rfl, rfl⟩ : caller = .producer thread ∧ i' = i ∧ m' = m ∧
              cb = received sender message kind := by simpa [eq_comm] using he
          have hsome := carriedText_received (h := i') hpost htext
          obtain ⟨hidle, hq⟩ := h.call (queueStep_inv hq).1
          have htexts := h.texts
          refine ⟨hpiped, ?_, ?_, ?_⟩
          · rw [hq]
            exact h.opened
          · intro c hc x hx
            rw [hq, AsyncQueue.setPc_other _ _ _ _ hc] at hx
            exact h.aside c hc x hx
          · rw [hidle, htransit] at htexts
            rw [hq]
            simpa [AsyncQueue.Pc.carried, hsome] using htexts
        · cases he
        · rcases he with he | he <;> cases he
        · cases he
      · cases hs
  | pipe a =>
    obtain ⟨p, hp, rfl⟩ := Option.map_eq_some_iff.mp hs
    exact h.pipe ha hp

end Steps

/-- What the listeners of the receiving process hear is a prefix of what the
messages the SDK has accepted are to arrive as, in order, none twice and none in
between; once nothing is under way they have heard it all. A text that is not
empty and was given a buffer arrives as it was sent just if it has no U+0000 and
no lone surrogate. -/
theorem messages_in_order (kind : Kind) (thread : ℕ) (s : Talk)
    (h : Reach (step kind thread : Talk → Action σ → Option Talk) (Undisturbed kind) init s)
    (later : Memory) :
    s.pipe.emitted.filterMap (heard kind later) <+: s.sent.filterMap Sent.arrives ∧
    ((∀ a, s.pipe.queue.pcs a = .idle) → s.pipe.queue.pending = false →
      s.pipe.queue.loop = .idle → s.pipe.immediates = [] → s.transit = [] →
      s.pipe.emitted.filterMap (heard kind later) = s.sent.filterMap Sent.arrives) ∧
    ∀ x ∈ s.sent, x.units ≠ [] → x.allocated = true →
      (x.arrives = some x.units ↔ 0 ∉ x.units ∧ Utf8.isWellFormed x.units = true) := by
  have hs : Ordered kind thread s := h.invariant (init_ordered kind thread) step_ordered
  have hsent : s.sent.filterMap Sent.arrives = (s.sent.filterMap Sent.wire).map Utf8.decode := by
    rw [List.map_filterMap]
    exact congrArg (fun f => s.sent.filterMap f) (funext fun x => x.decode_wire.symm)
  have hevents : ∀ l : List (AsyncQueue.Entry Posted),
      (l.map fun e => e.elem.event).filterMap (heard kind later) =
        (l.filterMap fun e => carriedText kind e.elem).map Utf8.decode := by
    intro l
    rw [List.filterMap_map, List.map_filterMap]
    exact congrArg (fun f => l.filterMap f) (funext fun e => heard_event kind later e.elem)
  have hpushed : (s.pipe.queue.pushed.map fun e => e.elem.event).filterMap (heard kind later) <+:
      s.sent.filterMap Sent.arrives := by
    rw [hevents, hsent, ← hs.texts, List.append_assoc, List.map_append]
    exact List.prefix_append _ _
  refine ⟨?_, ?_, ?_⟩
  · have hexec := (AsyncQueue.reach_kept hs.piped.queue.weaken).executed
    have hkept := AsyncQueue.handed_then_queued hs.piped.queue
    have hfirst : s.pipe.emitted <+: s.pipe.queue.pushed.map fun e => e.elem.event := by
      rw [← hkept, ← hexec, List.append_assoc, List.map_append, ← hs.piped.fired,
        List.append_assoc]
      exact List.prefix_append _ _
    exact (hfirst.filterMap _).trans hpushed
  · intro hcallers hpending hloop himmediates htransit
    have hexec := AsyncQueue.rest_executed hs.piped.queue hcallers hpending hloop
    have hall : s.pipe.emitted = s.pipe.queue.pushed.map fun e => e.elem.event := by
      rw [← hexec, ← hs.piped.fired, himmediates, List.append_nil]
    rw [hall, hevents, hsent, ← hs.texts, hcallers, htransit]
    simp [AsyncQueue.Pc.carried]
  · intro x _ hne hallocated
    rw [Sent.arrives, if_pos (by simp [Sent.hasText, hne, hallocated]), Option.some.injEq,
      returned_eq_iff]

def twoBuffers : Memory := fun p => if p = 0 then some [117, 0] else some [104, 0xC3, 0xA9, 0]

-- Three texts are sent, the second with a U+0000 and the third empty, which the
-- SDK drops; the first one is heard.
def talkRun : List (Action Unit) :=
  [.pipe (.construct .channel), .send (plainEnv []) .null [104, 0xE9] none,
    .send (plainEnv []) .null [65, 0, 66] none, .send (plainEnv []) .null [] none,
    .arrive 0 twoBuffers 0 ⟨1⟩,
    .pipe (.queue (.enter (.producer 7))), .pipe (.queue (.push (.producer 7))),
    .pipe (.queue (.send (.producer 7))), .pipe (.queue .wake), .pipe (.queue .acquire),
    .pipe (.queue .test), .pipe (.queue .finish), .pipe (.queue .acquire), .pipe (.queue .test),
    .pipe (.queue .leave), .pipe .checkBegin, .pipe .immediate]

theorem messages_in_order_two :
    (final (step .channel 7) (Undisturbed .channel) init talkRun).pipe.emitted.length = 1 ∧
    (final (step .channel 7) (Undisturbed .channel) init talkRun).sent.length = 3 ∧
    (final (step .channel 7) (Undisturbed .channel) init talkRun).pipe.emitted.filterMap
      (heard .channel fun _ => none) <+: [[104, 0xE9], [65]] :=
  ⟨rfl, rfl, (messages_in_order .channel 7
    (final (step .channel 7) (Undisturbed .channel) init talkRun)
    (reach_final rfl) fun _ => none).1⟩

end AgoraRtm.Conversation
