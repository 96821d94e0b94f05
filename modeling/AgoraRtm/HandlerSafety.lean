import AgoraRtm.Lifetime

/-!
# Tasks and the handlers they captured

Nothing takes a task out of the queue when its handler dies, and nothing keeps
the handler of a task that runs. So a task whose handler is destroyed before it
has read it, or that is posted on a destroyed handler, will run on it. An
`onEvent` registration keeps the wrapper, and with it the handler, for good.
-/

set_option autoImplicit false

namespace AgoraRtm.Lifetime
open Runs

/-- No executed task found its handler destroyed. -/
def Safe (W : World) : Prop := ∀ x ∈ W.ran, x.2 = false

def Draining (_ : World) (a : Action) : Prop := a = .drain ∨ a = .execute

/-- A handler is destroyed only while no queued task captures it and the running
task has not captured it or has read it, and no task is posted on it later. -/
def Undisposed (W : World) : Action → Prop
  | .finalize w => w ∉ W.queue ∧ W.running ≠ some w
  | .post h => ¬ W.Destroyed h
  | _ => True

instance (W : World) (a : Action) : Decidable (Undisposed W a) := by
  unfold Undisposed
  split <;> infer_instance

theorem undisposed_finalize (W : World) (w : ℕ) :
    Undisposed W (.finalize w) ↔ w ∉ W.captured := by
  simp [Undisposed, W.mem_captured]

def Registered (W : World) : Action → Prop
  | .post h => W.is h (fun wr => 0 < wr.persistents) = true
  | _ => True

instance (W : World) (a : Action) : Decidable (Registered W a) := by
  unfold Registered
  split <;> infer_instance

structure Sound (W : World) : Prop where
  safe : Safe W
  captured : ∀ h ∈ W.captured, ¬ W.Destroyed h

theorem init_sound : Sound init where
  safe x h := by cases h
  captured h hh := by cases hh

section Steps

variable {W T : World} {a : Action}

theorem sound_step_iff (h : Sound W) (hs : step W a = some T) : Sound T ↔ Undisposed W a := by
  have hdead := step_destroyed hs
  rcases step_tasks hs with ⟨x, rfl, hc, hran⟩ | ⟨x, rest, rfl, hfirst, hc, hran⟩ |
    ⟨hpost, hexecute, hc, hran⟩
  · constructor
    · intro hT hx
      exact hT.captured x (by simp [hc]) ((hdead x).mpr (Or.inl hx))
    · intro hx
      refine ⟨by simpa [Safe, hran] using h.safe, ?_⟩
      intro y hy
      rw [hc] at hy
      rw [hdead y]
      have halive : ¬ W.Destroyed y := by
        rcases List.mem_append.mp hy with hold | hnew
        · exact h.captured y hold
        · obtain rfl : y = x := by simpa using hnew
          exact hx
      simpa using halive
  · refine ⟨fun _ => trivial, fun _ => ⟨?_, ?_⟩⟩
    · intro y hy
      rw [hran] at hy
      rcases List.mem_append.mp hy with hold | hnew
      · exact h.safe y hold
      · obtain rfl : y = (x, W.is x fun wr => wr.destroyed) := by simpa using hnew
        have hx := h.captured x (by simp [hfirst])
        simpa [World.Destroyed] using hx
    · intro y hy
      rw [hc] at hy
      rw [hdead y]
      simpa using h.captured y (by simp [hfirst, hy])
  · have hsafe : Safe T := by simpa [Safe, hran] using h.safe
    constructor
    · intro hT
      cases a with
      | finalize w =>
        rw [undisposed_finalize]
        intro hw
        exact hT.captured w (by rwa [hc]) ((hdead w).mpr (Or.inr rfl))
      | post x => exact absurd rfl (hpost x)
      | _ => trivial
    · intro hok
      refine ⟨hsafe, ?_⟩
      intro y hy
      rw [hc] at hy
      rw [hdead y]
      rintro (hold | rfl)
      · exact h.captured y hy hold
      · exact (undisposed_finalize W y).mp hok hy

theorem sound_of_step (hs : step W a = some T) (h : Sound T) : Sound W := by
  have hdead := step_destroyed hs
  rcases step_tasks hs with ⟨x, rfl, hc, hran⟩ | ⟨x, rest, rfl, hfirst, hc, hran⟩ |
    ⟨hpost, hexecute, hc, hran⟩
  · refine ⟨by simpa [Safe, hran] using h.safe, ?_⟩
    intro y hy hd
    exact h.captured y (by simp [hc, hy]) ((hdead y).mpr (Or.inl hd))
  · refine ⟨fun y hy => h.safe y (by simp [hran, hy]), ?_⟩
    intro y hy hd
    rw [hfirst] at hy
    rcases List.mem_cons.mp hy with rfl | hrest
    · have hy : W.is y (fun wr => wr.destroyed) = true := hd
      have hbad := h.safe (y, true) (by rw [hran, hy]; simp)
      cases hbad
    · exact h.captured y (by rwa [hc]) ((hdead y).mpr (Or.inl hd))
  · refine ⟨by simpa [Safe, hran] using h.safe, ?_⟩
    intro y hy hd
    exact h.captured y (by rwa [hc]) ((hdead y).mpr (Or.inl hd))

theorem first_executes {h : ℕ} {rest : List ℕ} (hfirst : W.captured = h :: rest) :
    ∃ U, Reach step Draining W U ∧ U.captured = rest ∧ U.wrappers = W.wrappers ∧
      U.ran = W.ran ++ [(h, W.is h fun wr => wr.destroyed)] := by
  have hexecute : ∀ V : World, V.running = some h → ∃ U, Reach step Draining V U ∧
      U.captured = V.queue ∧ U.wrappers = V.wrappers ∧
      U.ran = V.ran ++ [(h, V.is h fun wr => wr.destroyed)] := by
    intro V hr
    have hs : step V .execute = some { V with
        running := none
        ran := V.ran ++ [(h, V.is h fun wr => wr.destroyed)] } := by
      simp [step, hr]
    exact ⟨_, Reach.single (Or.inr rfl) hs, rfl, rfl, rfl⟩
  cases hr : W.running with
  | some x =>
    obtain ⟨rfl, hq⟩ : x = h ∧ W.queue = rest := by simpa [World.captured, hr] using hfirst
    rw [← hq]
    exact hexecute W hr
  | none =>
    have hq : W.queue = h :: rest := by simpa [World.captured, hr] using hfirst
    have hs : step W .drain = some { W with queue := rest, running := some h } := by
      simp [step, hq, hr]
    obtain ⟨U, hU, hrest⟩ := hexecute { W with queue := rest, running := some h } rfl
    have htaken : Draining W .drain := Or.inl rfl
    exact ⟨U, (Reach.single htaken hs).trans hU, hrest⟩

theorem drain_executes (pre : List ℕ) (h : ℕ) (rest : List ℕ) (W : World)
    (hc : W.captured = pre ++ h :: rest) (hd : W.Destroyed h) :
    ∃ U, Reach step Draining W U ∧ ¬ Safe U := by
  induction pre generalizing W with
  | nil =>
    obtain ⟨U, hU, -, -, hran⟩ := first_executes hc
    refine ⟨U, hU, ?_⟩
    intro hsafe
    have hx := hsafe (h, W.is h fun wr => wr.destroyed) (by simp [hran])
    exact absurd hd (by simpa [World.Destroyed] using hx)
  | cons x pre ih =>
    obtain ⟨V, hV, hrest, hwrappers, -⟩ := first_executes hc
    have hdead : V.Destroyed h := by simpa [World.Destroyed, World.is, hwrappers] using hd
    obtain ⟨U, hU, hbad⟩ := ih V hrest hdead
    exact ⟨U, hV.trans hU, hbad⟩

/-- Sound states are those that draining the queue keeps safe. -/
theorem sound_iff_drains : Sound W ↔ ∀ U, Reach step Draining W U → Safe U := by
  constructor
  · intro h U hU
    have hsound : Sound U := hU.invariant h fun W a T hW ha hs =>
      (sound_step_iff hW hs).mpr (by rcases ha with rfl | rfl <;> trivial)
    exact hsound.safe
  · intro h
    refine ⟨h W (Reach.refl W), ?_⟩
    intro x hx hd
    obtain ⟨pre, rest, hc⟩ := List.append_of_mem hx
    obtain ⟨U, hU, hbad⟩ := drain_executes pre x rest W hc hd
    exact hbad (h U hU)

end Steps

/-- A wrapper that something refers to has not been collected. -/
def Rooted (wr : Wrapper) : Prop :=
  wr.referenced = true ∨ 0 < wr.persistents → wr.destroyed = false

structure Kept (W : World) : Prop where
  rooted : ∀ (h : ℕ) (wr : Wrapper), W.wrappers[h]? = some wr → Rooted wr
  registered : ∀ h ∈ W.captured, ∃ wr, W.wrappers[h]? = some wr ∧ 0 < wr.persistents

theorem change_rooted {a : Action} {h : ℕ} {wr wr' : Wrapper} (hc : Change a h wr wr')
    (hr : Rooted wr) : Rooted wr' := by
  cases hc with
  | requested w r x wr hx href => exact fun _ => hr (Or.inl href)
  | registered w wr href => exact fun _ => hr (Or.inl href)
  | dropped w wr href => exact fun _ => hr (Or.inl href)
  | revived w wr hp hd => exact fun _ => hd
  | finalized w wr hc =>
    simp only [collectable, Bool.and_eq_true, Bool.not_eq_true', decide_eq_true_eq] at hc
    rintro (href | hp)
    · simp [hc.1.1] at href
    · exact absurd hc.1.2 (Nat.ne_of_gt hp)

theorem change_persistents {a : Action} {h : ℕ} {wr wr' : Wrapper} (hc : Change a h wr wr') :
    wr.persistents ≤ wr'.persistents := by
  cases hc <;> simp

theorem step_registered {W T : World} {a : Action} (hs : step W a = some T) (h : ℕ)
    (hr : ∃ wr, W.wrappers[h]? = some wr ∧ 0 < wr.persistents) :
    ∃ wr, T.wrappers[h]? = some wr ∧ 0 < wr.persistents := by
  obtain ⟨wr, hwr, hp⟩ := hr
  rcases step_follows hs h with hsame | ⟨hnone, -⟩ | ⟨wr0, wr', hwr0, hwr', hc⟩
  · exact ⟨wr, by rw [hsame, hwr], hp⟩
  · rw [hwr] at hnone
    cases hnone
  · obtain rfl : wr0 = wr := by simpa [hwr0] using hwr
    have hle := change_persistents hc
    exact ⟨wr', hwr', by omega⟩

theorem step_kept (W : World) (a : Action) (T : World) (h : Kept W) (hok : Registered W a)
    (hs : step W a = some T) : Kept T := by
  constructor
  · intro x wr hx
    rcases step_follows hs x with hsame | ⟨-, c, hfresh, -⟩ | ⟨wr0, wr', hwr0, hwr', hc⟩
    · exact h.rooted x wr (by rw [← hsame, hx])
    · obtain rfl : fresh c = wr := by simpa [hfresh] using hx
      exact fun _ => rfl
    · obtain rfl : wr' = wr := by simpa [hwr'] using hx
      exact change_rooted hc (h.rooted x wr0 hwr0)
  · intro x hx
    apply step_registered hs x
    rcases step_tasks hs with ⟨y, rfl, hc, -⟩ | ⟨y, rest, -, hfirst, hc, -⟩ | ⟨-, -, hc, -⟩
    · rw [hc] at hx
      rcases List.mem_append.mp hx with hold | hnew
      · exact h.registered x hold
      · obtain rfl : x = y := by simpa using hnew
        simpa using (W.is_iff x _).mp hok
    · exact h.registered x (by rw [hc] at hx; simp [hfirst, hx])
    · exact h.registered x (by rwa [hc] at hx)

theorem registered_undisposed (W : World) (a : Action) (T : World) (h : Kept W)
    (hok : Registered W a) (hs : step W a = some T) : Undisposed W a := by
  have halive : ∀ (x : ℕ) (wr : Wrapper), W.wrappers[x]? = some wr → 0 < wr.persistents →
      ¬ W.Destroyed x := by
    intro x wr hwr hp hd
    obtain ⟨wr', hwr', hd'⟩ := (W.is_iff x _).mp hd
    obtain rfl : wr' = wr := by simpa [hwr'] using hwr
    simp [h.rooted x wr' hwr' (Or.inr hp)] at hd'
  cases a with
  | finalize w =>
    rw [undisposed_finalize]
    intro hw
    obtain ⟨wr, hwr, hp⟩ := h.registered w hw
    obtain ⟨wr', hwr', hc, -⟩ := step_finalize hs
    obtain rfl : wr' = wr := by simpa [hwr'] using hwr
    simp only [collectable, Bool.and_eq_true, Bool.not_eq_true', decide_eq_true_eq] at hc
    have hzero := hc.1.2
    omega
  | post x =>
    obtain ⟨wr, hwr, hp⟩ := (W.is_iff x _).mp hok
    exact halive x wr hwr (by simpa using hp)
  | _ => trivial

theorem reach_registered {W : World} (h : Reach step Registered init W) :
    Reach step Undisposed init W := by
  have hkept : Kept init := ⟨fun x wr hx => by simp [init] at hx, fun x hx => by cases hx⟩
  exact h.refine (I := Kept) (fun W => W) hkept step_kept fun W a T hW ha hs =>
    Reach.single (registered_undisposed W a T hW ha hs) hs

/-- A run, and whatever draining its queue adds to it, executes no task on a
destroyed handler just if handlers are destroyed only while no queued task and no
running one is still to read them, and no task is posted on them later. In
particular so if callbacks come on registered handlers only. -/
theorem handler_outlives_tasks (as : List Action) (W : World)
    (h : run step always init as = some W) :
    ((∀ U, Reach step Draining W U → Safe U) ↔ run step Undisposed init as = some W) ∧
    (run step Registered init as = some W → ∀ U, Reach step Draining W U → Safe U) := by
  rw [← sound_iff_drains]
  constructor
  · exact run_keeps_iff (I := fun _ => True) (fun _ _ _ _ _ => trivial)
      (fun W a T _ hW hs => sound_step_iff hW hs)
      (fun W a T _ hW hs hT => hW (sound_of_step hs hT)) h trivial init_sound
  · intro hreg
    exact (reach_registered (reach_of_run hreg)).invariant init_sound fun W a T hW ha hs =>
      (sound_step_iff hW hs).mpr ha

def registeredRun : List Action :=
  [.newController, .createChannel 0 "room" (some 0), .onEvent 1 true, .post 1, .drop 1, .drain,
    .execute]

theorem handler_outlives_tasks_registered :
    Safe (final step always init registeredRun) :=
  (handler_outlives_tasks registeredRun _ rfl).2 rfl _ (Reach.refl _)

def collectedRun : List Action :=
  [.newController, .createChannel 0 "room" (some 0), .post 1, .drop 1, .finalize 1]

theorem task_runs_on_destroyed_handler : ¬ ∀ W, Reach step always init W → Safe W := by
  intro h
  have hreach : Reach step always init
      (final step always init (collectedRun ++ [.drain, .execute])) := reach_final rfl
  have hfalse := h _ hreach (1, true) (by decide)
  cases hfalse

-- A collection while the task builds its arguments.
example : (final step always init [.newController, .createChannel 0 "room" (some 0), .post 1,
    .drop 1, .drain, .finalize 1, .execute]).ran = [(1, true)] := rfl

end AgoraRtm.Lifetime
