import AgoraRtm.Runs
import Mathlib.Data.List.Basic

/-!
# Wrappers, handlers and native channels

A JavaScript wrapper owns a native handler: an `RtmServerController` is its own,
an `RtmChannel` has one beside the `IChannel` that the SDK returned. V8 collects
a wrapper that neither JavaScript nor a persistent handle refers to, and the
destructor of an `RtmChannel` releases the `IChannel` and deletes the handler.
Posted tasks capture their handler and stay in the queue whatever becomes of it.
The drain takes a task out of the queue before it calls it, and V8 may collect
between the call and the task's first look at its handler: `onGetMembers` makes
its array and its strings first.
-/

set_option autoImplicit false

namespace AgoraRtm.Lifetime
open Runs

inductive NativeMethod where
  | join
  | leave
  | sendMessage
  | getMembers
  | release
  deriving DecidableEq, Repr

/-- A method of an `RtmChannel`, called from JavaScript. `sendMessage` gives up
where `createMessage` returns null. -/
inductive Request where
  | join
  | leave
  | release
  | getMembers
  | sendMessage (created : Bool)
  deriving DecidableEq, Repr

def Request.invokes : Request → Option NativeMethod
  | .join => some .join
  | .leave => some .leave
  | .release => some .release
  | .getMembers => some .getMembers
  | .sendMessage created => if created then some .sendMessage else none

structure Wrapper where
  /-- The `IChannel` of an `RtmChannel`; none for an `RtmServerController`. -/
  channel_ : Option ℕ
  /-- JavaScript refers to the wrapper. -/
  referenced : Bool
  /-- The persistent handles to it that `onEvent` has made. None is ever reset. -/
  persistents : ℕ
  /-- `release` has been called on it. The code keeps no such record. -/
  released : Bool
  destroyed : Bool
  deriving DecidableEq, Repr

structure IChannel where
  service : ℕ
  channelId : String
  log : List NativeMethod
  deriving DecidableEq, Repr

structure World where
  /-- A wrapper is named by its place, and so is its handler. -/
  wrappers : List Wrapper
  channels : List IChannel
  /-- The handlers that the queued tasks captured. -/
  queue : List ℕ
  /-- The handler of the task that has been taken out and called, until the task
  reads its `m_callbacks`. -/
  running : Option ℕ
  /-- The executed tasks: the handler, and whether it had been destroyed by the
  time it was read. -/
  ran : List (ℕ × Bool)
  deriving DecidableEq, Repr

def init : World := ⟨[], [], [], none, []⟩

def fresh (channel_ : Option ℕ) : Wrapper := ⟨channel_, true, 0, false, false⟩

inductive Action where
  | newController
  | createChannel (service : ℕ) (channelId : String) (result : Option ℕ)
  | method (w : ℕ) (r : Request)
  | onEvent (w : ℕ) (isFunction : Bool)
  | drop (w : ℕ)
  | revive (w : ℕ)
  | finalize (w : ℕ)
  | post (handler : ℕ)
  | drain
  | execute
  deriving DecidableEq, Repr

namespace World

def channelOf (W : World) (w : ℕ) : Option ℕ := (W.wrappers[w]?).bind Wrapper.channel_

def is (W : World) (w : ℕ) (p : Wrapper → Bool) : Bool := (W.wrappers[w]?).any p

def update (W : World) (w : ℕ) (f : Wrapper → Wrapper) : World :=
  { W with wrappers := W.wrappers.modify w f }

/-- The channel that the SDK returns for an identifier: the existing one, if
there is one that has not been released, or else a new one. -/
def lookup (W : World) (service : ℕ) (channelId : String) : ℕ :=
  (W.channels.findIdx? fun k =>
    k.service = service ∧ k.channelId = channelId ∧ .release ∉ k.log).getD W.channels.length

/-- A null result leaves the new handler behind, known to nobody. -/
def createChannel (W : World) (service : ℕ) (channelId : String) : Option ℕ → World
  | none => W
  | some c =>
    { W with
      wrappers := W.wrappers ++ [fresh (some c)]
      channels := if c < W.channels.length then W.channels
        else W.channels ++ [⟨service, channelId, []⟩] }

def invoke (W : World) (w : ℕ) (x : NativeMethod) : World :=
  match W.channelOf w with
  | none => W
  | some c => { W with channels := W.channels.modify c fun k => { k with log := k.log ++ [x] } }

def request (W : World) (w : ℕ) (r : Request) : World :=
  match r.invokes with
  | none => W
  | some x => (W.invoke w x).update w fun wr => { wr with released := wr.released || x = .release }

/-- `persistObj` and the handle that `addEventHandler` keeps. -/
def onEvent (W : World) (w : ℕ) (isFunction : Bool) : World :=
  if isFunction then W.update w fun wr => { wr with persistents := wr.persistents+2 } else W

/-- The destructor: `~RtmChannel` releases the channel and deletes the handler,
`~RtmServerController` does nothing of its own. -/
def destroy (W : World) (w : ℕ) : World :=
  (W.invoke w .release).update w fun wr => { wr with destroyed := true }

end World

def collectable (wr : Wrapper) : Bool :=
  !wr.referenced && wr.persistents = 0 && !wr.destroyed

def step (W : World) : Action → Option World
  | .newController => some { W with wrappers := W.wrappers ++ [fresh none] }
  | .createChannel service channelId result =>
    if W.is service (fun wr => wr.referenced && wr.channel_.isNone) = true ∧
        (∀ c ∈ result, c = W.lookup service channelId) then
      some (W.createChannel service channelId result)
    else none
  | .method w r =>
    if W.is w (fun wr => wr.referenced && wr.channel_.isSome) then some (W.request w r) else none
  | .onEvent w isFunction =>
    if W.is w (fun wr => wr.referenced) then some (W.onEvent w isFunction) else none
  | .drop w =>
    if W.is w (fun wr => wr.referenced) then
      some (W.update w fun wr => { wr with referenced := false })
    else none
  | .revive w =>
    if W.is w (fun wr => 0 < wr.persistents && !wr.destroyed) then
      some (W.update w fun wr => { wr with referenced := true })
    else none
  | .finalize w => if W.is w collectable then some (W.destroy w) else none
  | .post handler =>
    if handler < W.wrappers.length then some { W with queue := W.queue ++ [handler] } else none
  | .drain =>
    match W.queue, W.running with
    | handler :: rest, none => some { W with queue := rest, running := some handler }
    | _, _ => none
  | .execute =>
    match W.running with
    | none => none
    | some handler =>
      -- a callback that is found has persistent handles, which keep the handler from here on
      some { W with
        running := none
        ran := W.ran ++ [(handler, W.is handler fun wr => wr.destroyed)] }

theorem World.is_iff (W : World) (w : ℕ) (p : Wrapper → Bool) :
    W.is w p = true ↔ ∃ wr, W.wrappers[w]? = some wr ∧ p wr = true := by
  simp [is, Option.any_eq_true]

theorem World.update_wrappers (W : World) (w : ℕ) (f : Wrapper → Wrapper) :
    (W.update w f).wrappers = W.wrappers.modify w f := rfl

theorem World.request_some {r : Request} {x : NativeMethod} (hx : r.invokes = some x) (W : World)
    (w : ℕ) : W.request w r =
      (W.invoke w x).update w fun wr => { wr with released := wr.released || x = .release } := by
  simp [request, hx]

@[simp] theorem World.invoke_wrappers (W : World) (w : ℕ) (x : NativeMethod) :
    (W.invoke w x).wrappers = W.wrappers := by
  unfold invoke
  split <;> rfl

@[simp] theorem World.invoke_queue (W : World) (w : ℕ) (x : NativeMethod) :
    (W.invoke w x).queue = W.queue := by
  unfold invoke
  split <;> rfl

@[simp] theorem World.invoke_running (W : World) (w : ℕ) (x : NativeMethod) :
    (W.invoke w x).running = W.running := by
  unfold invoke
  split <;> rfl

@[simp] theorem World.invoke_ran (W : World) (w : ℕ) (x : NativeMethod) :
    (W.invoke w x).ran = W.ran := by
  unfold invoke
  split <;> rfl

inductive Effect (W : World) : Action → World → Prop where
  | constructed : Effect W .newController { W with wrappers := W.wrappers ++ [fresh none] }
  | refused (service : ℕ) (channelId : String) : Effect W (.createChannel service channelId none) W
  | created (service : ℕ) (channelId : String) (c : ℕ) (hc : c = W.lookup service channelId) :
    Effect W (.createChannel service channelId (some c))
      (W.createChannel service channelId (some c))
  | requested (w : ℕ) (r : Request)
      (hp : W.is w (fun wr => wr.referenced && wr.channel_.isSome) = true) :
    Effect W (.method w r) (W.request w r)
  | registered (w : ℕ) (isFunction : Bool) (hp : W.is w (fun wr => wr.referenced) = true) :
    Effect W (.onEvent w isFunction) (W.onEvent w isFunction)
  | dropped (w : ℕ) (hp : W.is w (fun wr => wr.referenced) = true) :
    Effect W (.drop w) (W.update w fun wr => { wr with referenced := false })
  | revived (w : ℕ) (hp : W.is w (fun wr => 0 < wr.persistents && !wr.destroyed) = true) :
    Effect W (.revive w) (W.update w fun wr => { wr with referenced := true })
  | finalized (w : ℕ) (hp : W.is w collectable = true) : Effect W (.finalize w) (W.destroy w)
  | posted (h : ℕ) : Effect W (.post h) { W with queue := W.queue ++ [h] }
  | drained (h : ℕ) (rest : List ℕ) (hq : W.queue = h :: rest) (hr : W.running = none) :
    Effect W .drain { W with queue := rest, running := some h }
  | executed (h : ℕ) (hr : W.running = some h) :
    Effect W .execute { W with
      running := none
      ran := W.ran ++ [(h, W.is h fun wr => wr.destroyed)] }

theorem step_effect {W T : World} {a : Action} (hs : step W a = some T) : Effect W a T := by
  cases a with
  | newController =>
    cases hs
    exact .constructed
  | createChannel service channelId result =>
    simp only [step] at hs
    split at hs
    · rename_i hp
      cases hs
      cases result with
      | none => exact .refused service channelId
      | some c => exact .created service channelId c (hp.2 c rfl)
    · cases hs
  | method w r =>
    simp only [step] at hs
    split at hs
    · rename_i hp
      cases hs
      exact .requested w r hp
    · cases hs
  | onEvent w isFunction =>
    simp only [step] at hs
    split at hs
    · rename_i hp
      cases hs
      exact .registered w isFunction hp
    · cases hs
  | drop w =>
    simp only [step] at hs
    split at hs
    · rename_i hp
      cases hs
      exact .dropped w hp
    · cases hs
  | revive w =>
    simp only [step] at hs
    split at hs
    · rename_i hp
      cases hs
      exact .revived w hp
    · cases hs
  | finalize w =>
    simp only [step] at hs
    split at hs
    · rename_i hp
      cases hs
      exact .finalized w hp
    · cases hs
  | post h =>
    simp only [step] at hs
    split at hs
    · cases hs
      exact .posted h
    · cases hs
  | drain =>
    simp only [step] at hs
    split at hs
    · rename_i h rest hq hr
      cases hs
      exact .drained h rest hq hr
    · cases hs
  | execute =>
    simp only [step] at hs
    split at hs
    · cases hs
    · rename_i h hr
      cases hs
      exact .executed h hr

inductive Change : Action → ℕ → Wrapper → Wrapper → Prop where
  | requested (w : ℕ) (r : Request) (x : NativeMethod) (wr : Wrapper) (hx : r.invokes = some x)
      (hr : wr.referenced = true) :
    Change (.method w r) w wr { wr with released := wr.released || x = .release }
  | registered (w : ℕ) (wr : Wrapper) (hr : wr.referenced = true) :
    Change (.onEvent w true) w wr { wr with persistents := wr.persistents+2 }
  | dropped (w : ℕ) (wr : Wrapper) (hr : wr.referenced = true) :
    Change (.drop w) w wr { wr with referenced := false }
  | revived (w : ℕ) (wr : Wrapper) (hp : 0 < wr.persistents) (hd : wr.destroyed = false) :
    Change (.revive w) w wr { wr with referenced := true }
  | finalized (w : ℕ) (wr : Wrapper) (hc : collectable wr = true) :
    Change (.finalize w) w wr { wr with destroyed := true }

inductive Creates : Action → Option ℕ → Prop where
  | controller : Creates .newController none
  | channel (service : ℕ) (channelId : String) (c : ℕ) :
    Creates (.createChannel service channelId (some c)) (some c)

def Follows (W T : World) (a : Action) (h : ℕ) : Prop :=
  T.wrappers[h]? = W.wrappers[h]? ∨
  (W.wrappers[h]? = none ∧ ∃ c, T.wrappers[h]? = some (fresh c) ∧ Creates a c) ∨
  ∃ wr wr', W.wrappers[h]? = some wr ∧ T.wrappers[h]? = some wr' ∧ Change a h wr wr'

theorem follows_append {W T : World} {a : Action} {c : Option ℕ}
    (hT : T.wrappers = W.wrappers ++ [fresh c]) (hc : Creates a c) (h : ℕ) : Follows W T a h := by
  unfold Follows
  rw [hT]
  by_cases hlt : h < W.wrappers.length
  · exact Or.inl (List.getElem?_append_left hlt)
  · by_cases heq : h = W.wrappers.length
    · subst heq
      exact Or.inr (Or.inl ⟨by simp, c, by simp, hc⟩)
    · left
      rw [List.getElem?_eq_none (by simp; omega), List.getElem?_eq_none (by omega)]

theorem follows_update {W T : World} {a : Action} {w : ℕ} {p : Wrapper → Bool}
    {f : Wrapper → Wrapper} (hp : W.is w p = true) (hT : T.wrappers = W.wrappers.modify w f)
    (hchange : ∀ wr, p wr = true → Change a w wr (f wr)) (h : ℕ) : Follows W T a h := by
  obtain ⟨wr, hwr, hpw⟩ := (W.is_iff w p).mp hp
  unfold Follows
  rw [hT, List.getElem?_modify]
  by_cases hw : w = h
  · subst hw
    exact Or.inr (Or.inr ⟨wr, f wr, hwr, by simp [hwr], hchange wr hpw⟩)
  · left
    simp [hw]

theorem step_follows {W T : World} {a : Action} (hs : step W a = some T) (h : ℕ) :
    Follows W T a h := by
  cases step_effect hs with
  | constructed => exact follows_append rfl .controller h
  | created service channelId c hc => exact follows_append rfl (.channel service channelId c) h
  | requested w r hp =>
    cases hx : r.invokes with
    | none => exact Or.inl (by simp [World.request, hx])
    | some x =>
      apply follows_update hp
        (by rw [World.request_some hx, World.update_wrappers, World.invoke_wrappers])
      intro wr hwr
      exact .requested w r x wr hx (by simp_all)
  | registered w isFunction hp =>
    cases isFunction with
    | false => exact Or.inl rfl
    | true => exact follows_update hp rfl (fun wr hwr => .registered w wr hwr) h
  | dropped w hp => exact follows_update hp rfl (fun wr hwr => .dropped w wr hwr) h
  | revived w hp =>
    exact follows_update hp rfl (fun wr hwr => .revived w wr (by simp_all) (by simp_all)) h
  | finalized w hp =>
    apply follows_update hp
      (by rw [World.destroy, World.update_wrappers, World.invoke_wrappers])
    intro wr hwr
    exact .finalized w wr hwr
  | _ => exact Or.inl rfl

/-- The handlers of the tasks that are still to read them, the running one's
first. -/
def World.captured (W : World) : List ℕ := W.running.toList ++ W.queue

theorem World.mem_captured (W : World) (h : ℕ) :
    h ∈ W.captured ↔ h ∈ W.queue ∨ W.running = some h := by
  simp [captured, or_comm]

theorem step_tasks {W T : World} {a : Action} (hs : step W a = some T) :
    (∃ h, a = .post h ∧ T.captured = W.captured ++ [h] ∧ T.ran = W.ran) ∨
    (∃ h rest, a = .execute ∧ W.captured = h :: rest ∧ T.captured = rest ∧
      T.ran = W.ran ++ [(h, W.is h fun wr => wr.destroyed)]) ∨
    ((∀ h, a ≠ .post h) ∧ a ≠ .execute ∧ T.captured = W.captured ∧ T.ran = W.ran) := by
  cases step_effect hs with
  | posted h => exact Or.inl ⟨h, rfl, by simp [World.captured], rfl⟩
  | executed h hr =>
    exact Or.inr (Or.inl ⟨h, W.queue, rfl, by simp [World.captured, hr], rfl, rfl⟩)
  | drained h rest hq hr =>
    right; right
    simp [World.captured, hq, hr]
  | requested w r hp =>
    right; right
    cases hx : r.invokes <;> simp [World.request, hx, World.update, World.captured]
  | registered w isFunction hp =>
    right; right
    cases isFunction <;> simp [World.onEvent, World.update, World.captured]
  | finalized w hp =>
    right; right
    simp [World.destroy, World.update, World.captured]
  | _ => exact Or.inr (Or.inr ⟨by simp, by simp, rfl, rfl⟩)

def World.Destroyed (W : World) (h : ℕ) : Prop := W.is h (fun wr => wr.destroyed) = true

instance (W : World) (h : ℕ) : Decidable (W.Destroyed h) := inferInstanceAs (Decidable (_ = true))

theorem step_finalize {W T : World} {w : ℕ} (hs : step W (.finalize w) = some T) :
    ∃ wr, W.wrappers[w]? = some wr ∧ collectable wr = true ∧
      T.wrappers[w]? = some { wr with destroyed := true } := by
  cases step_effect hs with
  | finalized w hp =>
    obtain ⟨wr, hwr, hc⟩ := (W.is_iff w collectable).mp hp
    refine ⟨wr, hwr, hc, ?_⟩
    simp [World.destroy, World.update, hwr]

theorem step_destroyed {W T : World} {a : Action} (hs : step W a = some T) (h : ℕ) :
    T.Destroyed h ↔ W.Destroyed h ∨ a = .finalize h := by
  by_cases ha : a = .finalize h
  · subst ha
    obtain ⟨wr, -, -, hwr⟩ := step_finalize hs
    simp [World.Destroyed, World.is, hwr]
  · have hiff : T.Destroyed h ↔ W.Destroyed h := by
      unfold World.Destroyed World.is
      rcases step_follows hs h with hsame | ⟨hnone, c, hfresh, -⟩ | ⟨wr, wr', hwr, hwr', hchange⟩
      · rw [hsame]
      · simp [hnone, hfresh, fresh]
      · rw [hwr, hwr']
        cases hchange with
        | finalized => exact absurd rfl ha
        | _ => exact Iff.rfl
    simp [hiff, ha]

end AgoraRtm.Lifetime
