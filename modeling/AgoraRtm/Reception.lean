import AgoraRtm.Delivery
import AgoraRtm.NativeSystem

/-!
# What a user listener receives

The arguments of an event on their way through the addon's `argv`, the closure
given to `onEvent` and `fire`. A parameter that the native side leaves out is
undefined, as if it were not passed; an argument for which the closure has no
parameter is lost.
-/

set_option autoImplicit false

namespace AgoraRtm.Reception
open NativeEvents Delivery NativeSystem

/-- The event that an object's listeners get of a task of its handler, and its
arguments. -/
def received (kind : Kind) (later : Memory) (task : Task) : Option Notice := do
  let argv ← task.argv later
  let callback ← (subscribeEvents kind 0).callbacks.lookup task.event
  return (callback.fires, argv.take callback.arity)

theorem argv_length {m : Memory} {t : Task} {argv : List JsValue} (h : t.argv m = some argv) :
    argv.length = t.params.length := by
  obtain ⟨event, params⟩ := t
  simp only [Task.argv] at h ⊢
  induction params generalizing argv with
  | nil =>
    obtain rfl : [] = argv := by simpa using h
    rfl
  | cons p params ih =>
    rw [List.mapM_cons] at h
    obtain ⟨v, -, h⟩ := Option.bind_eq_some_iff.mp h
    obtain ⟨vs, hvs, h⟩ := Option.bind_eq_some_iff.mp h
    obtain rfl := Option.some.inj h
    simp [ih hvs]

/-- The closures pass on all arguments, in order, under the native name. -/
theorem received_eq (m later : Memory) (cb : Callback) (t : Task) (h : cb.post m = some t) :
    received (kindOf cb) later t = (t.argv later).map fun argv => (t.event, argv) := by
  cases hargv : t.argv later with
  | none => simp [received, hargv]
  | some argv =>
    have hlen := argv_length hargv
    simp [received, hargv, subscribed 0 h, List.take_of_length_le (Nat.le_of_eq hlen)]

theorem received_some {m later : Memory} {cb : Callback} {t : Task} {n : Notice}
    (hp : cb.post m = some t) (hn : received (kindOf cb) later t = some n) :
    t.argv later = some n.2 ∧ n.1 = t.event := by
  rw [received_eq m later cb t hp] at hn
  obtain ⟨argv, hargv, rfl⟩ := Option.map_eq_some_iff.mp hn
  exact ⟨hargv, rfl⟩

theorem received_notice (m : Memory) (cb : Callback) :
    notice m cb = (cb.post m).bind (received (kindOf cb) m) := by
  cases hp : cb.post m with
  | none => simp [notice, hp]
  | some t => cases hargv : t.argv m <;> simp [notice, hp, received_eq m m cb t hp, hargv]

def values (later : Memory) (e : Emitted) : Option Notice :=
  (e.args.mapM fun p : Option Param => p.bind (Param.create later)).map fun argv => (e.event, argv)

end AgoraRtm.Reception
