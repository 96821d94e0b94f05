import Mathlib.Data.List.Basic

/-!
# Tables of one-shot listeners

Registration order, and emission over a snapshot of the listeners of an event:
each is removed from the table before its body runs. Bodies act on a state of
their own, so emission splits into what is left of the table and a fold of the
bodies over the snapshot.
-/

set_option autoImplicit false

namespace OnceTable

variable {β σ : Type*}

structure Listener (β : Type*) where
  event : String
  body : β
  deriving DecidableEq, Repr

def listenersOf (table : List (Listener β)) (event : String) : List (Listener β) :=
  table.filter fun l => l.event = event

def bodies (run : β → σ → σ) (snapshot : List (Listener β)) (s : σ) : σ :=
  snapshot.foldl (fun s l => run l.body s) s

theorem mem_listenersOf {table : List (Listener β)} {event : String} {l : Listener β} :
    l ∈ listenersOf table event ↔ l ∈ table ∧ l.event = event := by
  simp [listenersOf]

theorem bodies_induction {P : σ → Prop} (run : β → σ → σ) (snapshot : List (Listener β)) (s : σ)
    (h0 : P s) (hstep : ∀ l ∈ snapshot, ∀ s, P s → P (run l.body s)) :
    P (bodies run snapshot s) := by
  induction snapshot generalizing s with
  | nil => exact h0
  | cons l rest ih =>
    exact ih (run l.body s) (hstep l (by simp) s h0) fun m hm => hstep m (by simp [hm])

theorem bodies_establish {P : σ → Prop} (run : β → σ → σ) (snapshot : List (Listener β)) (s : σ)
    (l : Listener β) (hl : l ∈ snapshot) (hset : ∀ s, P (run l.body s))
    (hstep : ∀ m ∈ snapshot, ∀ s, P s → P (run m.body s)) : P (bodies run snapshot s) := by
  induction snapshot generalizing s with
  | nil => simp at hl
  | cons m rest ih =>
    rcases List.mem_cons.mp hl with rfl | hrest
    · exact bodies_induction run rest _ (hset s) fun n hn => hstep n (by simp [hn])
    · exact ih (run m.body s) hrest fun n hn => hstep n (by simp [hn])

theorem bodies_related {R : σ → σ → Prop} (run : β → σ → σ) (snapshot : List (Listener β))
    (s t : σ) (h0 : R s t)
    (hstep : ∀ l ∈ snapshot, ∀ s t, R s t → R (run l.body s) (run l.body t)) :
    R (bodies run snapshot s) (bodies run snapshot t) := by
  induction snapshot generalizing s t with
  | nil => exact h0
  | cons l rest ih =>
    exact ih _ _ (hstep l (by simp) s t h0) fun m hm => hstep m (by simp [hm])

section Emission

variable [DecidableEq β]

def emitLoop (run : β → σ → σ) : List (Listener β) → List (Listener β) × σ → List (Listener β) × σ
  | [], ts => ts
  | l :: rest, (table, s) => emitLoop run rest (table.erase l, run l.body s)

def emit (run : β → σ → σ) (event : String) (table : List (Listener β)) (s : σ) :
    List (Listener β) × σ :=
  emitLoop run (listenersOf table event) (table, s)

theorem emitLoop_state (run : β → σ → σ) (snapshot table : List (Listener β)) (s : σ) :
    (emitLoop run snapshot (table, s)).2 = bodies run snapshot s := by
  induction snapshot generalizing table s with
  | nil => rfl
  | cons l rest ih => exact ih _ _

theorem emitLoop_skip (run : β → σ → σ) (snapshot table : List (Listener β)) (s : σ)
    (l : Listener β) (hl : l ∉ snapshot) :
    (emitLoop run snapshot (l :: table, s)).1 = l :: (emitLoop run snapshot (table, s)).1 := by
  induction snapshot generalizing table s with
  | nil => rfl
  | cons m rest ih =>
    have hne : l ≠ m := fun h => hl (by simp [h])
    have hrest : l ∉ rest := fun h => hl (by simp [h])
    simp only [emitLoop]
    rw [List.erase_cons_tail (by simpa using hne)]
    exact ih _ _ hrest

theorem emit_state (run : β → σ → σ) (event : String) (table : List (Listener β)) (s : σ) :
    (emit run event table s).2 = bodies run (listenersOf table event) s :=
  emitLoop_state run _ table s

/-- Emission removes exactly the listeners of the event. -/
theorem emit_table (run : β → σ → σ) (event : String) (table : List (Listener β)) (s : σ) :
    (emit run event table s).1 = table.filter fun l => l.event ≠ event := by
  unfold emit
  induction table generalizing s with
  | nil => rfl
  | cons l rest ih =>
    by_cases he : l.event = event
    · have hcons : listenersOf (l :: rest) event = l :: listenersOf rest event := by
        simp [listenersOf, he]
      simp [hcons, emitLoop, ih, he]
    · have hskip : listenersOf (l :: rest) event = listenersOf rest event := by
        simp [listenersOf, he]
      have hnot : l ∉ listenersOf rest event := fun h => he (mem_listenersOf.mp h).2
      rw [hskip, emitLoop_skip run _ rest s l hnot, ih]
      simp [he]

end Emission

end OnceTable
