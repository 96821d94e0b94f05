import AgoraRtm.Runs
import AgoraRtm.OnceTable
import AgoraRtm.NativeEvents
import Mathlib.Logic.Function.Basic

/-!
# The promise adapter

`login`, `logout`, `join` and `leave` share one protocol over a `Mutex` and an
`EventEmitter`. A call goes through three turns of the JavaScript thread: its
own, which starts the timer of `wait`; the timer's; and the one after `await`,
which locks, invokes the native method and registers the once-listeners. The
last turn is cut behind the native call, since SDK threads may post before the
listeners are there.
-/

set_option autoImplicit false

namespace AgoraRtm.Adapter
open Runs OnceTable NativeEvents

structure Mutex where
  lockers : String → Option Bool

namespace Mutex

def lock (μ : Mutex) (key : String) : Mutex := ⟨Function.update μ.lockers key (some true)⟩

def unlock (μ : Mutex) (key : String) : Mutex := ⟨Function.update μ.lockers key (some false)⟩

def locked (μ : Mutex) (key : String) : Bool := (μ.lockers key).getD false

/-- What the timer callback of `wait` does with its promise. -/
def wait (μ : Mutex) (key : String) : Except String Unit :=
  if !μ.locked key then .ok () else .error (key ++ " has been locked")

@[simp] theorem lock_same (μ : Mutex) (key : String) : (μ.lock key).lockers key = some true := by
  simp [lock]

@[simp] theorem unlock_same (μ : Mutex) (key : String) :
    (μ.unlock key).lockers key = some false := by
  simp [unlock]

theorem lock_other (μ : Mutex) (key other : String) (h : other ≠ key) :
    (μ.lock key).lockers other = μ.lockers other := by
  simp [lock, h]

theorem unlock_other (μ : Mutex) (key other : String) (h : other ≠ key) :
    (μ.unlock key).lockers other = μ.lockers other := by
  simp [unlock, h]

end Mutex

inductive Reason where
  | error (message : String)
  | thrown (err : String)
  | code (ecode : Option JsValue)
  deriving DecidableEq, Repr

inductive Promise where
  | pending
  | fulfilled
  | rejected (reason : Reason)
  deriving DecidableEq, Repr

def Promise.settle : Promise → Promise → Promise
  | .pending, p => p
  | p, _ => p

inductive Settle where
  | resolve
  | reject
  deriving DecidableEq, Repr

def Settle.outcome (args : List JsValue) : Settle → Promise
  | .resolve => .fulfilled
  | .reject => .rejected (.code args.head?)

structure Once where
  event : String
  settle : Settle
  deriving DecidableEq, Repr

/-- What tells the four copies of the protocol apart. -/
structure Guarded where
  key : String
  onces : List Once

def join : Guarded := ⟨"join", [⟨"JoinSuccess", .resolve⟩, ⟨"JoinFailure", .reject⟩]⟩

def leave : Guarded := ⟨"leave", [⟨"LeaveChannel", .resolve⟩]⟩

def login : Guarded := ⟨"login", [⟨"LoginSuccess", .resolve⟩, ⟨"LoginFailure", .reject⟩]⟩

def logout : Guarded := ⟨"logout", [⟨"Logout", .resolve⟩]⟩

inductive JsClass where
  | AgoraRtmChannel
  | AgoraRtmSDK
  deriving DecidableEq, Repr

inductive Method : JsClass → Type where
  | join : Method .AgoraRtmChannel
  | leave : Method .AgoraRtmChannel
  | login : Method .AgoraRtmSDK
  | logout : Method .AgoraRtmSDK
  deriving DecidableEq, Repr

def Method.guarded : {c : JsClass} → Method c → Guarded
  | _, .join => Adapter.join
  | _, .leave => Adapter.leave
  | _, .login => Adapter.login
  | _, .logout => Adapter.logout

variable {c : JsClass}

abbrev Method.key (m : Method c) : String := m.guarded.key

def Method.Completes (m : Method c) (event : String) : Prop :=
  ∃ o ∈ m.guarded.onces, o.event = event

instance (m : Method c) (event : String) : Decidable (m.Completes event) :=
  inferInstanceAs (Decidable (∃ o ∈ m.guarded.onces, o.event = event))

theorem Method.key_injective (m m' : Method c) (h : m.key = m'.key) : m = m' := by
  cases m <;> cases m' <;> first | rfl | exact absurd h (by decide)

theorem Method.onces_disjoint (m m' : Method c) :
    ∀ o ∈ m.guarded.onces, ∀ o' ∈ m'.guarded.onces, o.event = o'.event → m = m' := by
  cases m <;> cases m' <;> decide

theorem Method.onces_unique (m : Method c) :
    ∀ o ∈ m.guarded.onces, ∀ o' ∈ m.guarded.onces, o.event = o'.event → o = o' := by
  cases m <;> decide

inductive Phase where
  | unissued
  | waiting
  | passed
  | refused (message : String)
  | done
  deriving DecidableEq, Repr

structure Call where
  phase : Phase
  promise : Promise
  invoked : ℕ
  deriving DecidableEq, Repr

abbrev Id (c : JsClass) := Method c × ℕ

structure Obj (c : JsClass) where
  mutex : Mutex
  listeners : List (Listener (Id c × Settle))
  issued : Method c → ℕ
  calls : Id c → Call
  /-- The call whose turn has invoked the native method and not yet registered. -/
  running : Option (Id c)

def init (c : JsClass) : Obj c :=
  ⟨⟨fun _ => none⟩, [], fun _ => 0, fun _ => ⟨.unissued, .pending, 0⟩, none⟩

namespace Obj

def setCall (s : Obj c) (i : Id c) (k : Call) : Obj c :=
  { s with calls := Function.update s.calls i k }

def lock (s : Obj c) (key : String) : Obj c := { s with mutex := s.mutex.lock key }

def unlock (s : Obj c) (key : String) : Obj c := { s with mutex := s.mutex.unlock key }

def settle (s : Obj c) (i : Id c) (p : Promise) : Obj c :=
  s.setCall i { s.calls i with promise := (s.calls i).promise.settle p }

def once (args : List JsValue) (b : Id c × Settle) (s : Obj c) : Obj c :=
  (s.unlock b.1.1.key).settle b.1 (b.2.outcome args)

/-- The catch block, shared by a refused `wait` and a native exception. -/
def caught (s : Obj c) (i : Id c) (reason : Reason) : Obj c :=
  (s.unlock i.1.key).settle i (.rejected reason)

def Locked (s : Obj c) (m : Method c) : Prop := s.mutex.locked m.key = true

instance (s : Obj c) (m : Method c) : Decidable (s.Locked m) :=
  inferInstanceAs (Decidable (_ = true))

@[simp] theorem setCall_mutex (s : Obj c) (i : Id c) (k : Call) :
    (s.setCall i k).mutex = s.mutex := rfl

@[simp] theorem setCall_running (s : Obj c) (i : Id c) (k : Call) :
    (s.setCall i k).running = s.running := rfl

@[simp] theorem setCall_same (s : Obj c) (i : Id c) (k : Call) : (s.setCall i k).calls i = k := by
  simp [setCall]

theorem setCall_other (s : Obj c) (i j : Id c) (k : Call) (h : j ≠ i) :
    (s.setCall i k).calls j = s.calls j := by
  simp [setCall, h]

@[simp] theorem lock_calls (s : Obj c) (key : String) : (s.lock key).calls = s.calls := rfl

@[simp] theorem unlock_mutex (s : Obj c) (key : String) :
    (s.unlock key).mutex = s.mutex.unlock key := rfl

@[simp] theorem unlock_calls (s : Obj c) (key : String) : (s.unlock key).calls = s.calls := rfl

def InFlight (s : Obj c) (i : Id c) : Prop :=
  0 < (s.calls i).invoked ∧ (s.calls i).promise = .pending

instance (s : Obj c) (i : Id c) : Decidable (s.InFlight i) := inferInstanceAs (Decidable (_ ∧ _))

end Obj

/-- How a native method can end: with an exception; with a return code and no
completion event to follow; with a return code and a completion event that
will be posted. The adapter reads neither return code. -/
inductive Native where
  | threw (err : String)
  | failed (code : ℤ)
  | accepted (code : ℤ)
  deriving DecidableEq, Repr

def Native.returns : Native → Bool
  | .threw _ => false
  | _ => true

inductive Action (c : JsClass) where
  | call (m : Method c)
  | timer (i : Id c)
  | resume (i : Id c) (r : Native)
  | register
  | emit (event : String) (args : List JsValue)
  deriving DecidableEq, Repr

def Obj.issue (s : Obj c) (m : Method c) : Obj c :=
  { s.setCall (m, s.issued m) ⟨.waiting, .pending, 0⟩ with
    issued := Function.update s.issued m (s.issued m+1) }

def Obj.waited (s : Obj c) (i : Id c) : Phase :=
  match s.mutex.wait i.1.key with
  | .ok _ => .passed
  | .error message => .refused message

def Obj.enter (s : Obj c) (i : Id c) : Obj c :=
  (s.lock i.1.key).setCall i ⟨.done, (s.calls i).promise, (s.calls i).invoked+1⟩

def Obj.leaveWait (s : Obj c) (i : Id c) : Obj c :=
  s.setCall i ⟨.done, (s.calls i).promise, (s.calls i).invoked⟩

def Obj.inTurn (s : Obj c) (i : Id c) : Obj c := { s with running := some i }

def Obj.resume (s : Obj c) (i : Id c) (r : Native) : Option (Obj c) :=
  match (s.calls i).phase with
  | .passed =>
    match r with
    | .threw err => some ((s.enter i).caught i (.thrown err))
    | _ => some ((s.enter i).inTurn i)
  | .refused message => some ((s.leaveWait i).caught i (.error message))
  | _ => none

def Obj.Enters (s : Obj c) (i : Id c) (r : Native) : Prop :=
  (s.calls i).phase = .passed ∧ r.returns = true

instance (s : Obj c) (i : Id c) (r : Native) : Decidable (s.Enters i r) :=
  inferInstanceAs (Decidable (_ ∧ _))

def Obj.register (s : Obj c) (i : Id c) : Obj c :=
  { s with
    listeners := s.listeners ++ i.1.guarded.onces.map fun o => ⟨o.event, (i, o.settle)⟩
    running := none }

def Obj.emit (s : Obj c) (event : String) (args : List JsValue) : Obj c :=
  { (OnceTable.emit (Obj.once args) event s.listeners s).2 with
    listeners := (OnceTable.emit (Obj.once args) event s.listeners s).1 }

/-- A turn begins only when none is running. -/
def step (s : Obj c) (a : Action c) : Option (Obj c) :=
  match s.running, a with
  | none, .call m => some (s.issue m)
  | none, .timer i =>
    if (s.calls i).phase = .waiting then some (s.setCall i { s.calls i with phase := s.waited i })
    else none
  | none, .resume i r => s.resume i r
  | some i, .register => some (s.register i)
  | none, .emit event args => some (s.emit event args)
  | _, _ => none

end AgoraRtm.Adapter
