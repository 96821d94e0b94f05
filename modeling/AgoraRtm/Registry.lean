import AgoraRtm.Delivery

/-!
# Registered callbacks

`onEvent` puts a callback under its event's name into the `m_callbacks` of its
object, from the main program or from inside a running callback. A task that the
drain loop takes looks its event up when it begins to run and calls what it finds
with the arguments it builds then. The history of an object is bookkeeping.
-/

set_option autoImplicit false

namespace AgoraRtm.Registry
open Runs NativeEvents Delivery

variable {κ : Type}

/-- What happens at one object: a registration, or a task that runs over a memory
with the calls it makes. -/
inductive Happening (κ : Type) where
  | registered (eventName : String) (callback : κ)
  | ran (task : Task) (m : Memory) (calls : List (κ × List JsValue))

structure World (κ : Type) where
  m_callbacks : ℕ → List (String × κ)
  queue : AsyncQueue.State Posted
  history : ℕ → List (Happening κ)

def init : World κ := ⟨fun _ => [], AsyncQueue.init, fun _ => []⟩

inductive Action (κ : Type) where
  | onEvent (object : ℕ) (eventName : String) (callback : κ)
  | native (caller : AsyncQueue.Actor) (object : ℕ) (m : Memory) (cb : Callback)
  | queue (a : AsyncQueue.Action Posted)
  | test (m : Memory)

def World.note (s : World κ) (object : ℕ) (x : Happening κ) : World κ :=
  { s with history := Function.update s.history object (s.history object ++ [x]) }

def runTask (s : World κ) (m : Memory) (p : Posted) : Option (World κ) :=
  match (s.m_callbacks p.handler).lookup p.task.event with
  | none => some (s.note p.handler (.ran p.task m []))
  | some callback =>
    (p.task.argv m).map fun argv => s.note p.handler (.ran p.task m [(callback, argv)])

def World.onEvent (s : World κ) (object : ℕ) (eventName : String) (callback : κ) : World κ :=
  let m_callbacks := addEventHandler (s.m_callbacks object) eventName callback
  { s with m_callbacks := Function.update s.m_callbacks object m_callbacks }.note object
    (.registered eventName callback)

/-- JavaScript runs on the loop thread outside of the drain loop and inside of
the tasks it calls. -/
def javaScript : AsyncQueue.LoopPc Posted → Bool
  | .idle => true
  | .running _ => true
  | _ => false

def step (kind : ℕ → Kind) (s : World κ) : Action κ → Option (World κ)
  | .onEvent object eventName callback =>
    if javaScript s.queue.loop then some (s.onEvent object eventName callback) else none
  | .native caller object m cb =>
    if kindOf cb = kind object then
      match cb.post m with
      | none => none
      | some task =>
        (AsyncQueue.step s.queue (.call caller ⟨object, task⟩)).map fun q => { s with queue := q }
    else none
  | .queue (.call _ _) => none
  | .queue .test => none
  | .queue a => (AsyncQueue.step s.queue a).map fun q => { s with queue := q }
  | .test m =>
    match AsyncQueue.step s.queue .test with
    | none => none
    | some q =>
      match q.loop with
      | .running e => runTask { s with queue := q } m e.elem
      | _ => some { s with queue := q }

def registrations (history : List (Happening κ)) (eventName : String) : List κ :=
  history.filterMap fun
    | .registered name callback => if name = eventName then some callback else none
    | .ran _ _ _ => none

def tasks (history : List (Happening κ)) : List Task :=
  history.filterMap fun
    | .registered _ _ => none
    | .ran task _ _ => some task

def Each {β : Type*} (P : List β → β → Prop) (l : List β) : Prop :=
  ∀ before x after, l = before ++ x :: after → P before x

theorem each_nil {β : Type*} (P : List β → β → Prop) : Each P [] := by
  intro before x after h
  simp at h

theorem each_snoc {β : Type*} {P : List β → β → Prop} {l : List β} {x : β} (h : Each P l)
    (hx : P l x) : Each P (l ++ [x]) := by
  intro before y after hsplit
  rcases List.eq_nil_or_concat after with rfl | ⟨middle, z, rfl⟩
  · obtain ⟨rfl, hy⟩ := List.append_inj' hsplit rfl
    obtain rfl := List.singleton_inj.mp hy
    exact hx
  · rw [List.concat_eq_append, ← List.cons_append, ← List.append_assoc] at hsplit
    obtain ⟨rfl, -⟩ := List.append_inj' hsplit rfl
    exact h before y middle rfl

def Calls (f : κ) (task : Task) (m : Memory) (calls : List (κ × List JsValue)) : Prop :=
  ∃ argv, task.argv m = some argv ∧ calls = [(f, argv)]

def LastWins (before : List (Happening κ)) : Happening κ → Prop
  | .registered _ _ => True
  | .ran task m calls =>
    ∀ f, (registrations before task.event).getLast? = some f → Calls f task m calls

/-- What the code does: a task calls the callback registered first, or none. -/
def FirstWins (before : List (Happening κ)) : Happening κ → Prop
  | .registered _ _ => True
  | .ran task m calls =>
    match (registrations before task.event).head? with
    | some f => Calls f task m calls
    | none => calls = []

/-- The callback registered last for the event of a task is the first one. -/
def Settled (before : List (Happening κ)) : Happening κ → Prop
  | .registered _ _ => True
  | .ran task _ _ =>
    (registrations before task.event).getLast? = (registrations before task.event).head?

section Registering

theorem lookup_addEventHandler (m_callbacks : List (String × κ)) (eventName other : String)
    (callback : κ) :
    (addEventHandler m_callbacks eventName callback).lookup other =
      (m_callbacks.lookup other).or (if eventName = other then some callback else none) := by
  unfold addEventHandler
  by_cases hname : eventName = other
  · subst hname
    cases hl : m_callbacks.lookup eventName with
    | none => simp [hl, List.lookup_append]
    | some f => simp [hl]
  · have hbeq : (other == eventName) = false := by simpa using fun h => hname h.symm
    split
    · simp
    · simp [List.lookup_append, List.lookup_cons, hbeq]

theorem registrations_registered (history : List (Happening κ)) (eventName other : String)
    (callback : κ) :
    registrations (history ++ [.registered eventName callback]) other =
      registrations history other ++ (if eventName = other then [callback] else []) := by
  simp only [registrations, List.filterMap_append]
  split
  · rename_i h
    simp [h]
  · rename_i h
    simp [h]

theorem registrations_ran (history : List (Happening κ)) (task : Task) (m : Memory)
    (calls : List (κ × List JsValue)) (eventName : String) :
    registrations (history ++ [.ran task m calls]) eventName =
      registrations history eventName := by
  simp [registrations]

theorem tasks_registered (history : List (Happening κ)) (eventName : String) (callback : κ) :
    tasks (history ++ [.registered eventName callback]) = tasks history := by
  simp [tasks]

theorem tasks_ran (history : List (Happening κ)) (task : Task) (m : Memory)
    (calls : List (κ × List JsValue)) :
    tasks (history ++ [.ran task m calls]) = tasks history ++ [task] := by
  simp [tasks]

end Registering

def taken (queue : AsyncQueue.State Posted) (object : ℕ) : List Task :=
  (queue.handed.filter fun e => e.elem.handler = object).map fun e => e.elem.task

/-- The history of each object is what its `m_callbacks` and the queue say. -/
structure Recorded (s : World κ) : Prop where
  found : ∀ object eventName, (s.m_callbacks object).lookup eventName =
    (registrations (s.history object) eventName).head?
  first : ∀ object, Each FirstWins (s.history object)
  ran : ∀ object, tasks (s.history object) = taken s.queue object

theorem init_recorded : Recorded (init : World κ) :=
  ⟨fun _ _ => rfl, fun _ => each_nil _, fun _ => rfl⟩

theorem onEvent_recorded {s : World κ} (h : Recorded s) (object : ℕ) (eventName : String)
    (callback : κ) : Recorded (s.onEvent object eventName callback) := by
  refine ⟨?_, ?_, ?_⟩
  · intro other name
    by_cases ho : other = object
    · subst ho
      simp only [World.onEvent, World.note, Function.update_self, lookup_addEventHandler,
        registrations_registered, List.head?_append, h.found other name]
      congr 1
      split <;> rfl
    · simpa [World.onEvent, World.note, ho] using h.found other name
  · intro other
    by_cases ho : other = object
    · subst ho
      simp only [World.onEvent, World.note, Function.update_self]
      exact each_snoc (h.first other) trivial
    · simpa [World.onEvent, World.note, ho] using h.first other
  · intro other
    by_cases ho : other = object
    · subst ho
      simpa [World.onEvent, World.note, tasks_registered] using h.ran other
    · simpa [World.onEvent, World.note, ho] using h.ran other

theorem note_recorded {s : World κ} {queue : AsyncQueue.State Posted} (h : Recorded s) (p : Posted)
    {m : Memory} {calls : List (κ × List JsValue)}
    (hqueue : ∀ object, taken queue object =
      taken s.queue object ++ if p.handler = object then [p.task] else [])
    (hfirst : FirstWins (s.history p.handler) (.ran p.task m calls)) :
    Recorded ({ s with queue := queue }.note p.handler (.ran p.task m calls)) := by
  refine ⟨?_, ?_, ?_⟩
  · intro other name
    by_cases ho : other = p.handler
    · subst ho
      simpa [World.note, registrations_ran] using h.found p.handler name
    · simpa [World.note, ho] using h.found other name
  · intro other
    by_cases ho : other = p.handler
    · subst ho
      simp only [World.note, Function.update_self]
      exact each_snoc (h.first p.handler) hfirst
    · simpa [World.note, ho] using h.first other
  · intro other
    by_cases ho : other = p.handler
    · subst ho
      simp [World.note, tasks_ran, hqueue, h.ran]
    · simp [World.note, ho, hqueue, Ne.symm ho, h.ran]

section Handing

variable {α : Type*} {s t : AsyncQueue.State α}

theorem test_handed (h : AsyncQueue.step s .test = some t) :
    (∃ e, t.loop = .running e ∧ t.handed = s.handed ++ [e]) ∨
      t.loop = .leaving ∧ t.handed = s.handed := by
  obtain ⟨-, rfl⟩ := AsyncQueue.step_test h
  rcases AsyncQueue.drainTest_cases s with ⟨-, hd⟩ | ⟨e, rest, -, hd⟩
  · rw [hd]
    exact Or.inr ⟨rfl, rfl⟩
  · rw [hd]
    exact Or.inl ⟨e, rfl, rfl⟩

theorem handed_same {a : AsyncQueue.Action α} (ha : a ≠ .test)
    (h : AsyncQueue.step s a = some t) : t.handed = s.handed := by
  rcases AsyncQueue.step_effect h with hsame | ⟨a, rfl⟩ | ⟨a, rfl⟩ | ⟨c, rfl⟩ | rfl
  · exact hsame.handed
  · obtain ⟨e, bounded, -, rfl⟩ := AsyncQueue.step_push h
    rcases AsyncQueue.evict_cases s bounded with he | ⟨_, _, -, -, -, he⟩ <;>
      simp [AsyncQueue.append, he]
  · obtain ⟨-, -, -, rfl⟩ := AsyncQueue.step_clear h
    rfl
  · obtain rfl := Option.some.inj h
    rfl
  · exact absurd rfl ha

end Handing

theorem moved_recorded {s : World κ} (h : Recorded s) {queue : AsyncQueue.State Posted}
    (hhanded : queue.handed = s.queue.handed) : Recorded { s with queue := queue } := by
  refine ⟨h.found, h.first, ?_⟩
  intro object
  rw [h.ran object, taken, taken, hhanded]

theorem runTask_recorded {s t : World κ} {queue : AsyncQueue.State Posted} {m : Memory}
    {e : AsyncQueue.Entry Posted} (h : Recorded s) (hhanded : queue.handed = s.queue.handed ++ [e])
    (hrun : runTask { s with queue := queue } m e.elem = some t) : Recorded t := by
  have hqueue : ∀ object, taken queue object = taken s.queue object ++
      if e.elem.handler = object then [e.elem.task] else [] := by
    intro object
    rw [taken, hhanded, List.filter_append, List.map_append, ← taken]
    split
    · rename_i ho
      simp [ho]
    · rename_i ho
      simp [ho]
  have hfound := h.found e.elem.handler e.elem.task.event
  unfold runTask at hrun
  split at hrun
  · rename_i hnone
    obtain rfl := Option.some.inj hrun
    refine note_recorded h e.elem hqueue ?_
    rw [FirstWins, ← hfound, hnone]
  · rename_i callback hsome
    obtain ⟨argv, hargv, rfl⟩ := Option.map_eq_some_iff.mp hrun
    refine note_recorded h e.elem hqueue ?_
    rw [FirstWins, ← hfound, hsome]
    exact ⟨argv, hargv, rfl⟩

theorem step_recorded (kind : ℕ → Kind) (s : World κ) (a : Action κ) (t : World κ)
    (h : Recorded s) (hs : step kind s a = some t) : Recorded t := by
  have hmove : ∀ b, b ≠ .test →
      (AsyncQueue.step s.queue b).map (fun q => { s with queue := q }) = some t → Recorded t := by
    intro b hb hq
    obtain ⟨q, hstep, rfl⟩ := Option.map_eq_some_iff.mp hq
    exact moved_recorded h (handed_same hb hstep)
  cases a with
  | onEvent object eventName callback =>
    simp only [step] at hs
    split at hs
    · obtain rfl := Option.some.inj hs
      exact onEvent_recorded h object eventName callback
    · cases hs
  | native caller object m cb =>
    simp only [step] at hs
    split at hs
    · split at hs
      · cases hs
      · exact hmove _ (by simp) hs
    · cases hs
  | queue b =>
    cases b with
    | call caller p => cases hs
    | test => cases hs
    | setCapacity c => exact hmove (.setCapacity c) (by simp) hs
    | enter actor => exact hmove (.enter actor) (by simp) hs
    | push actor => exact hmove (.push actor) (by simp) hs
    | send actor => exact hmove (.send actor) (by simp) hs
    | clear actor => exact hmove (.clear actor) (by simp) hs
    | close => exact hmove .close (by simp) hs
    | wake => exact hmove .wake (by simp) hs
    | acquire => exact hmove .acquire (by simp) hs
    | finish => exact hmove .finish (by simp) hs
    | leave => exact hmove .leave (by simp) hs
  | test m =>
    simp only [step] at hs
    split at hs
    · cases hs
    · rename_i q hq
      rcases test_handed hq with ⟨e, hloop, hhanded⟩ | ⟨hloop, hhanded⟩
      · simp only [hloop] at hs
        exact runTask_recorded h hhanded hs
      · simp only [hloop] at hs
        obtain rfl := Option.some.inj hs
        exact moved_recorded h hhanded

theorem reach_recorded {kind : ℕ → Kind} {s : World κ} (h : Reach (step kind) always init s) :
    Recorded s :=
  h.invariant init_recorded fun s a t hs _ ht => step_recorded kind s a t hs ht

theorem lastWins_iff (before : List (Happening κ)) (x : Happening κ) (h : FirstWins before x) :
    LastWins before x ↔ Settled before x := by
  cases x with
  | registered eventName callback => exact Iff.rfl
  | ran task m calls =>
    cases hl : registrations before task.event with
    | nil => simp [LastWins, Settled, hl]
    | cons f rest =>
      obtain ⟨argv, hargv, rfl⟩ : Calls f task m calls := by simpa [FirstWins, hl] using h
      obtain ⟨g, hlast⟩ : ∃ g, (f :: rest).getLast? = some g := ⟨_, List.getLast?_cons⟩
      simp only [LastWins, Settled, hl, hlast, List.head?_cons, Option.some.injEq]
      constructor
      · intro hwins
        obtain ⟨args, -, hcalls⟩ := hwins g rfl
        exact (congrArg Prod.fst (List.singleton_inj.mp hcalls)).symm
      · rintro rfl g rfl
        exact ⟨argv, hargv, rfl⟩

/-- In every run each task that the loop took has run at its object, and it calls
the callback registered last for its event just if that one was registered first. -/
theorem callback_registered (kind : ℕ → Kind) (s : World κ)
    (h : Reach (step kind) always init s) (object : ℕ) :
    tasks (s.history object) = taken s.queue object ∧
    Each (fun before x => LastWins before x ↔ Settled before x) (s.history object) := by
  have hrecorded := reach_recorded h
  refine ⟨hrecorded.ran object, ?_⟩
  intro before x after hsplit
  exact lastWins_iff before x (hrecorded.first object before x after hsplit)

def logout : List (Action ℕ) :=
  [.native (.producer 0) 0 (fun _ => none) (.controller (.onLogout 0)),
    .queue (.enter (.producer 0)), .queue (.push (.producer 0)), .queue (.send (.producer 0)),
    .queue .wake, .queue .acquire, .test fun _ => none]

theorem callback_registered_logout :
    Each (fun before x => LastWins before x ↔ Settled before x)
      ((final (step fun _ => .controller) always init
        (.onEvent 0 "Logout" 1 :: logout)).history 0) :=
  (callback_registered (fun _ => .controller) _ (reach_final rfl) 0).2

/-- The second callback registered for a name is never called. -/
theorem callback_shadowed :
    ¬ ∀ (kind : ℕ → Kind) (s : World ℕ), Reach (step kind) always init s →
      ∀ object, Each LastWins (s.history object) := by
  intro h
  have hlast := h (fun _ => .controller) (final (step fun _ => .controller) always init
    (.onEvent 0 "Logout" 1 :: .onEvent 0 "Logout" 2 :: logout)) (reach_final rfl) 0
  obtain ⟨argv, -, hcalls⟩ := hlast [.registered "Logout" 1, .registered "Logout" 2]
    (.ran ⟨"Logout", [.int32 0]⟩ (fun _ => none) [(1, [.scalar (.number 0)])]) [] rfl 2 rfl
  have hsame : 1 = 2 := congrArg Prod.fst (List.singleton_inj.mp hcalls)
  exact absurd hsame (by decide)

end AgoraRtm.Registry
