import AgoraRtm.Fifo

/-!
# The process-wide asynchronous queue

Producers push under `lock_` and then wake the loop with `uv_async_send`; the
loop thread drains in `on_event`, releasing the lock around each callback. A
step ends where another thread can observe the state: at a lock operation, at
an access that takes no lock, and at the entry and the return of a callback.
The push ordinals and the logs of elements are bookkeeping; no branch reads them.
-/

set_option autoImplicit false

namespace AgoraRtm.AsyncQueue
open Runs

variable {α : Type*}

structure Entry (α : Type*) where
  seq : ℕ
  elem : α
  deriving DecidableEq, Repr

inductive Loss where
  | evicted
  | cleared
  deriving DecidableEq, Repr

/-- Who calls into the queue: a thread of its own, or the task that the loop
thread is running inside `cb_`. -/
inductive Actor where
  | producer (n : ℕ)
  | task
  deriving DecidableEq, Repr

inductive Holder where
  | loop
  | caller (a : Actor)
  deriving DecidableEq, Repr

inductive Pc (α : Type*) where
  | idle
  | checked (e : α)
  | locked (e : α) (bounded : Bool)
  | pushed
  deriving DecidableEq, Repr

inductive LoopPc (α : Type*) where
  | idle
  | entering
  | testing
  | running (e : Entry α)
  | relocking
  | leaving
  deriving DecidableEq, Repr

structure State (α : Type*) where
  q : List (Entry α)
  capacity : ℕ
  closed : Bool
  lock : Option Holder
  pending : Bool
  loop : LoopPc α
  pcs : Actor → Pc α
  fault : Bool
  pushed : List (Entry α)
  handed : List (Entry α)
  executed : List (Entry α)
  lost : List (Loss × Entry α)

def init : State α where
  q := []
  capacity := 0
  closed := false
  lock := none
  pending := false
  loop := .idle
  pcs := fun _ => .idle
  fault := false
  pushed := []
  handed := []
  executed := []
  lost := []

inductive Action (α : Type*) where
  | call (a : Actor) (e : α)
  | enter (a : Actor)
  | push (a : Actor)
  | send (a : Actor)
  | setCapacity (c : ℕ)
  | clear (a : Actor)
  | close
  | wake
  | acquire
  | test
  | finish
  | leave

def takeFront : List (Entry α) → Option (Entry α × List (Entry α))
  | [] => none
  | e :: rest => some (e, rest)

def LoopPc.runs : LoopPc α → Bool
  | .running _ => true
  | _ => false

def State.present (s : State α) : Actor → Bool
  | .producer _ => true
  | .task => s.loop.runs

def State.setPc (s : State α) (a : Actor) (pc : Pc α) : State α :=
  { s with pcs := Function.update s.pcs a pc }

/-- The capacity rule: the caller has found `capacity_` nonzero on its first
read and compares the size with what it reads the second time. -/
def evict (s : State α) (bounded : Bool) : State α :=
  if bounded && s.q.length > s.capacity then
    match takeFront s.q with
    | none => { s with fault := true }
    | some (e, rest) => { s with q := rest, lost := s.lost ++ [(.evicted, e)] }
  else s

def append (s : State α) (e : α) : State α :=
  let entry : Entry α := ⟨s.pushed.length, e⟩
  { s with q := s.q ++ [entry], pushed := s.pushed ++ [entry] }

/-- The test of the drain loop under the lock. The popped element is a local
of the loop thread, so releasing the lock and entering `cb_` are one step. -/
def drainTest (s : State α) : State α :=
  if s.q.isEmpty then { s with lock := none, loop := .leaving }
  else
    match takeFront s.q with
    | none => { s with fault := true }
    | some (e, rest) =>
      { s with q := rest, lock := none, loop := .running e, handed := s.handed ++ [e] }

def step (s : State α) : Action α → Option (State α)
  | .call a e =>
    match s.present a, s.pcs a with
    | true, .idle => if s.closed then some s else some (s.setPc a (.checked e))
    | _, _ => none
  | .enter a =>
    match s.lock, s.pcs a with
    | none, .checked e =>
      some { s.setPc a (.locked e (s.capacity != 0)) with lock := some (.caller a) }
    | _, _ => none
  | .push a =>
    match s.pcs a with
    | .locked e bounded => some { (append (evict s bounded) e).setPc a .pushed with lock := none }
    | _ => none
  | .send a =>
    match s.pcs a with
    | .pushed => some { s.setPc a .idle with pending := true }
    | _ => none
  | .setCapacity c => some { s with capacity := c }
  | .clear a =>
    match s.present a, s.pcs a, s.lock with
    | true, .idle, none =>
      some { s with q := [], lost := s.lost ++ s.q.map (Loss.cleared, ·) }
    | _, _, _ => none
  | .close => some { s with closed := true }
  | .wake =>
    match s.loop, s.pending with
    | .idle, true => some { s with pending := false, loop := .entering }
    | _, _ => none
  | .acquire =>
    match s.loop, s.lock with
    | .entering, none => some { s with lock := some .loop, loop := .testing }
    | .relocking, none => some { s with lock := some .loop, loop := .testing }
    | _, _ => none
  | .test =>
    match s.loop with
    | .testing => some (drainTest s)
    | _ => none
  | .finish =>
    match s.loop, s.pcs .task with
    | .running e, .idle => some { s with loop := .relocking, executed := s.executed ++ [e] }
    | _, _ => none
  | .leave =>
    match s.loop with
    | .leaving => some { s with loop := .idle }
    | _ => none

end AgoraRtm.AsyncQueue
