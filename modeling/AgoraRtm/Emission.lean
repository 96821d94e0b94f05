import AgoraRtm.Adapter

/-!
# Emissions

What an emission does to the object that emits: the listeners of the event are
gone, the calls they belong to are settled and their keys unlocked, and all else
is as it was. Listeners of settled calls settle nothing.
-/

set_option autoImplicit false

namespace AgoraRtm.Adapter
open Runs OnceTable NativeEvents

variable {c : JsClass}

namespace Obj

theorem emit_listeners (s : Obj c) (event : String) (args : List JsValue) :
    (s.emit event args).listeners = s.listeners.filter fun l => l.event ≠ event :=
  emit_table (once args) event s.listeners s

/-- What the bodies of the event's listeners preserve one by one, and what does
not read the table, an emission preserves. -/
theorem emit_induction {P : Obj c → Prop} (s : Obj c) (event : String) (args : List JsValue)
    (h0 : P s) (htable : ∀ u ls, P u → P { u with listeners := ls })
    (hbody : ∀ l ∈ listenersOf s.listeners event, ∀ u, P u → P (once args l.body u)) :
    P (s.emit event args) := by
  apply htable
  rw [emit_state]
  exact bodies_induction (once args) _ s h0 hbody

theorem emit_establish {P : Obj c → Prop} (s : Obj c) (event : String) (args : List JsValue)
    (htable : ∀ u ls, P u → P { u with listeners := ls }) (l : Listener (Id c × Settle))
    (hl : l ∈ listenersOf s.listeners event) (hset : ∀ u, P (once args l.body u))
    (hbody : ∀ l ∈ listenersOf s.listeners event, ∀ u, P u → P (once args l.body u)) :
    P (s.emit event args) := by
  apply htable
  rw [emit_state]
  exact bodies_establish (once args) _ s l hl hset hbody

theorem once_same (args : List JsValue) (b : Id c × Settle) (s : Obj c) :
    (once args b s).calls b.1 =
      { s.calls b.1 with promise := (s.calls b.1).promise.settle (b.2.outcome args) } := by
  simp [once, settle]

theorem once_other (args : List JsValue) (b : Id c × Settle) (s : Obj c) (i : Id c)
    (h : i ≠ b.1) : (once args b s).calls i = s.calls i := by
  simp [once, settle, setCall_other _ _ _ _ h]

theorem once_call (args : List JsValue) (b : Id c × Settle) (s : Obj c) (i : Id c) :
    (once args b s).calls i = { s.calls i with promise := ((once args b s).calls i).promise } := by
  by_cases h : i = b.1
  · subst h
    rw [once_same]
  · rw [once_other args b s i h]

theorem once_lockers (args : List JsValue) (b : Id c × Settle) (s : Obj c) (key : String) :
    (once args b s).mutex.lockers key =
      if key = b.1.1.key then some false else s.mutex.lockers key := by
  by_cases h : key = b.1.1.key
  · simp [once, settle, h]
  · simp [once, settle, h, Mutex.unlock_other]

theorem settle_pending (p q : Promise) (h : p.settle q = .pending) : p = .pending := by
  cases p <;> simp_all [Promise.settle]

theorem outcome_ne_pending (x : Settle) (args : List JsValue) : x.outcome args ≠ .pending := by
  cases x <;> simp [Settle.outcome]

theorem settle_outcome_ne_pending (p : Promise) (x : Settle) (args : List JsValue) :
    p.settle (x.outcome args) ≠ .pending := by
  intro h
  obtain rfl := settle_pending _ _ h
  exact outcome_ne_pending x args h

theorem settle_settled (p q : Promise) (h : p ≠ .pending) : p.settle q = p := by
  cases p <;> simp_all [Promise.settle]

theorem emit_running (s : Obj c) (event : String) (args : List JsValue) :
    (s.emit event args).running = s.running :=
  emit_induction (P := fun u => u.running = s.running) s event args rfl (fun _ _ h => h)
    fun _ _ _ h => h

theorem emit_issued (s : Obj c) (event : String) (args : List JsValue) :
    (s.emit event args).issued = s.issued :=
  emit_induction (P := fun u => u.issued = s.issued) s event args rfl (fun _ _ h => h)
    fun _ _ _ h => h

theorem emit_call (s : Obj c) (event : String) (args : List JsValue) (i : Id c) :
    (s.emit event args).calls i =
      { s.calls i with promise := ((s.emit event args).calls i).promise } := by
  apply emit_induction (P := fun u => u.calls i = { s.calls i with promise := (u.calls i).promise })
    s event args
  · rfl
  · intro u ls h
    exact h
  · intro l _ u h
    rw [once_call, h]

theorem emit_untouched (s : Obj c) (event : String) (args : List JsValue) (i : Id c)
    (h : ∀ l ∈ s.listeners, l.event = event → l.body.1 ≠ i) :
    (s.emit event args).calls i = s.calls i := by
  apply emit_induction (P := fun u => u.calls i = s.calls i) s event args rfl (fun _ _ hu => hu)
  intro l hl u hu
  have hne := h l (mem_listenersOf.mp hl).1 (mem_listenersOf.mp hl).2
  rw [once_other args l.body u i (Ne.symm hne), hu]

theorem emit_settles (s : Obj c) (event : String) (args : List JsValue) (i : Id c) (x : Settle)
    (hmem : ⟨event, (i, x)⟩ ∈ s.listeners)
    (hall : ∀ l ∈ s.listeners, l.event = event → l.body.1 = i → l.body.2 = x) :
    ((s.emit event args).calls i).promise = (s.calls i).promise.settle (x.outcome args) := by
  have heither : ((s.emit event args).calls i).promise = (s.calls i).promise ∨
      ((s.emit event args).calls i).promise = (s.calls i).promise.settle (x.outcome args) := by
    apply emit_induction (P := fun u => (u.calls i).promise = (s.calls i).promise ∨
      (u.calls i).promise = (s.calls i).promise.settle (x.outcome args)) s event args
    · exact Or.inl rfl
    · intro u ls hu
      exact hu
    · intro l hl u hu
      by_cases hi : i = l.body.1
      · have hx := hall l (mem_listenersOf.mp hl).1 (mem_listenersOf.mp hl).2 hi.symm
        right
        rw [hi, once_same, hx, ← hi]
        rcases hu with hu | hu
        · rw [hu]
        · simp only [hu]
          exact settle_settled _ _ (settle_outcome_ne_pending _ _ _)
      · rw [once_other args l.body u i hi]
        exact hu
  have hsettled : ((s.emit event args).calls i).promise ≠ .pending := by
    apply emit_establish (P := fun u => (u.calls i).promise ≠ .pending) s event args
      (fun _ _ hu => hu) ⟨event, (i, x)⟩ (mem_listenersOf.mpr ⟨hmem, rfl⟩)
    · intro u
      rw [once_same args (i, x) u]
      exact settle_outcome_ne_pending _ _ _
    · intro l _ u hu
      by_cases hi : i = l.body.1
      · rw [hi, once_same]
        exact settle_outcome_ne_pending _ _ _
      · rw [once_other args l.body u i hi]
        exact hu
  rcases heither with h | h
  · rw [h, settle_settled]
    rw [← h]
    exact hsettled
  · exact h

theorem emit_settled (s : Obj c) (event : String) (args : List JsValue) (i : Id c)
    (h : (s.calls i).promise ≠ .pending) : (s.emit event args).calls i = s.calls i := by
  apply emit_induction (P := fun u => u.calls i = s.calls i) s event args rfl (fun _ _ hu => hu)
  intro l _ u hu
  by_cases hi : i = l.body.1
  · have hsame := once_same args l.body u
    rw [← hi, hu, settle_settled _ _ h] at hsame
    exact hsame
  · rw [once_other args l.body u i hi, hu]

theorem emit_inFlight_before (s : Obj c) (event : String) (args : List JsValue) (i : Id c)
    (h : (s.emit event args).InFlight i) : s.InFlight i := by
  have hback : ((s.emit event args).calls i).promise = .pending →
      (s.calls i).promise = .pending := by
    apply emit_induction (P := fun u => (u.calls i).promise = .pending →
      (s.calls i).promise = .pending) s event args id (fun _ _ hu => hu)
    intro l _ u hu hp
    by_cases hi : i = l.body.1
    · rw [hi, once_same, ← hi] at hp
      exact hu (settle_pending _ _ hp)
    · rw [once_other args l.body u i hi] at hp
      exact hu hp
  have hcall := emit_call s event args i
  refine ⟨?_, hback h.2⟩
  have hpos := h.1
  rw [hcall] at hpos
  exact hpos

theorem emit_lockers_untouched (s : Obj c) (event : String) (args : List JsValue) (key : String)
    (h : ∀ l ∈ s.listeners, l.event = event → l.body.1.1.key ≠ key) :
    (s.emit event args).mutex.lockers key = s.mutex.lockers key := by
  apply emit_induction (P := fun u => u.mutex.lockers key = s.mutex.lockers key) s event args rfl
    (fun _ _ hu => hu)
  intro l hl u hu
  have hne := h l (mem_listenersOf.mp hl).1 (mem_listenersOf.mp hl).2
  rw [once_lockers, if_neg (Ne.symm hne), hu]

theorem emit_unlocks (s : Obj c) (event : String) (args : List JsValue)
    (l : Listener (Id c × Settle)) (hl : l ∈ s.listeners) (he : l.event = event) :
    (s.emit event args).mutex.lockers l.body.1.1.key = some false := by
  apply emit_establish (P := fun u => u.mutex.lockers l.body.1.1.key = some false) s event args
    (fun _ _ hu => hu) l (mem_listenersOf.mpr ⟨hl, he⟩)
  · intro u
    rw [once_lockers, if_pos rfl]
  · intro m _ u hu
    rw [once_lockers]
    split
    · rfl
    · exact hu

end Obj

end AgoraRtm.Adapter
