import AgoraRtm.Stranding

/-!
# Every object of a process

Any number of SDK and channel objects, each with its promises and its native side,
share one queue and the thread that JavaScript runs on: a turn of one object is over
before a turn of another, a task or an emission begins. Each object goes through a
run of its own process, and together they come to rest.
-/

set_option autoImplicit false

namespace AgoraRtm.Ensemble
open Runs Adapter NativeEvents Delivery NativeSystem Reception Settlement Process

structure Side (c : JsClass) where
  obj : Obj c
  outstanding : Method c → ℕ
  begun : List (AsyncQueue.Actor × Method c × Answer)
  answers : Method c → List Answer

/-- The pipe that all share, and the object in each place, of the class that
`kinds` says. -/
structure Objects (kinds : ℕ → JsClass) where
  pipe : Pipe
  sides : (o : ℕ) → Side (kinds o)

def init (kinds : ℕ → JsClass) : Objects kinds :=
  ⟨Delivery.init, fun o => ⟨Adapter.init (kinds o), fun _ => 0, [], fun _ => []⟩⟩

inductive Action (kinds : ℕ → JsClass) where
  | js (o : ℕ) (a : Adapter.Action (kinds o))
  | answer (o : ℕ) (caller : AsyncQueue.Actor) (m : Method (kinds o)) (ans : Answer)
  | pipe (a : Delivery.Action)

variable {kinds : ℕ → JsClass}

def side {c : JsClass} (S : Host c) : Side c := ⟨S.obj, S.outstanding, S.begun, S.answers⟩

def Objects.host (W : Objects kinds) (o : ℕ) : Host (kinds o) :=
  ⟨W.pipe, (W.sides o).obj, (W.sides o).outstanding, (W.sides o).begun, (W.sides o).answers⟩

def Objects.set (W : Objects kinds) (o : ℕ) (S : Host (kinds o)) : Objects kinds :=
  ⟨S.pipe, Function.update W.sides o (side S)⟩

def Objects.Alone (W : Objects kinds) (o : ℕ) : Prop :=
  ∀ p < W.pipe.handlers.length, p ≠ o → (W.sides p).obj.running = none

def Objects.Between (W : Objects kinds) : Prop :=
  ∀ p < W.pipe.handlers.length, (W.sides p).obj.running = none

instance (W : Objects kinds) (o : ℕ) : Decidable (W.Alone o) :=
  inferInstanceAs (Decidable (∀ p < W.pipe.handlers.length, p ≠ o → (W.sides p).obj.running = none))

instance (W : Objects kinds) : Decidable W.Between :=
  inferInstanceAs (Decidable (∀ p < W.pipe.handlers.length, (W.sides p).obj.running = none))

/-- What the thread that JavaScript runs on does in the pipe. -/
def onLoop : Delivery.Action → Bool
  | .callback _ _ _ _ => false
  | .queue (.call _ _) | .queue (.enter _) | .queue (.push _) | .queue (.send _) => false
  | _ => true

def pipeStep (argv : Emitted → List JsValue) (W : Objects kinds) :
    Delivery.Action → Option (Objects kinds)
  | .construct kind =>
    if kind = kindOfClass (kinds W.pipe.handlers.length) then
      (Delivery.step W.pipe (.construct kind)).map fun p => { W with pipe := p }
    else none
  | .queue (.push caller) =>
    (Delivery.step W.pipe (.queue (.push caller))).map fun p =>
      ⟨p, fun o => side ((W.host o).pushed caller p)⟩
  | .immediate =>
    match W.pipe.immediates with
    | [] => none
    | e :: _ =>
      (Process.step argv e.object (W.host e.object) (.pipe .immediate)).map (W.set e.object)
  | a => (Delivery.step W.pipe a).map fun p => { W with pipe := p }

def step (argv : Emitted → List JsValue) (W : Objects kinds) : Action kinds → Option (Objects kinds)
  | .js o a =>
    if W.Alone o then (Process.step argv o (W.host o) (.js a)).map (W.set o) else none
  | .answer o caller m ans =>
    (Process.step argv o (W.host o) (.answer caller m ans)).map (W.set o)
  | .pipe a => if onLoop a = true → W.Between then pipeStep argv W a else none

def Shared (W : Objects kinds) : Action kinds → Prop
  | .pipe (.queue .close) => False
  | .pipe a => Used W.pipe a
  | _ => True

instance (W : Objects kinds) (a : Action kinds) : Decidable (Shared W a) := by
  unfold Shared
  split <;> infer_instance

def notes (W : Objects kinds) : Action kinds → List (Σ o, Mark (kinds o))
  | .js o a => (Process.marks o (W.host o) (.js a)).map (Sigma.mk o)
  | .pipe .immediate => W.pipe.immediates.head?.toList.map fun e => ⟨e.object, .emitted e.event⟩
  | _ => []

def markOf (o : ℕ) (x : Σ p, Mark (kinds p)) : Option (Mark (kinds o)) :=
  if h : x.1 = o then some (h ▸ x.2) else none

abbrev Watched (kinds : ℕ → JsClass) := Recorded (Objects kinds) (Σ o, Mark (kinds o))

def watch (argv : Emitted → List JsValue) : Watched kinds → Action kinds → Option (Watched kinds) :=
  recorded (step argv) notes

def unwatched (kinds : ℕ → JsClass) : Watched kinds := ⟨init kinds, []⟩

def part (o : ℕ) (W : Watched kinds) : Process.Watched (kinds o) :=
  ⟨W.state.host o, W.record.filterMap (markOf o)⟩

@[simp] theorem markOf_self (o : ℕ) (m : Mark (kinds o)) : markOf o ⟨o, m⟩ = some m := by
  simp [markOf]

theorem markOf_other {o p : ℕ} (h : p ≠ o) (m : Mark (kinds p)) :
    markOf o (⟨p, m⟩ : Σ q, Mark (kinds q)) = none := dif_neg h

@[simp] theorem host_set (W : Objects kinds) (o : ℕ) (S : Host (kinds o)) :
    (W.set o S).host o = S := by
  simp [Objects.host, Objects.set, side]

theorem host_set_other (W : Objects kinds) {o p : ℕ} (h : p ≠ o) (S : Host (kinds o)) :
    (W.set o S).host p = { W.host p with pipe := S.pipe } := by
  simp [Objects.host, Objects.set, h]

theorem host_sides {p : Pipe} (S : (o : ℕ) → Host (kinds o)) {o : ℕ} (h : (S o).pipe = p) :
    Objects.host ⟨p, fun o => side (S o)⟩ o = S o := by
  subst h
  rfl

section Steps

variable {argv : Emitted → List JsValue} {W T : Objects kinds} {a : Action kinds}

theorem js_step {o : ℕ} {b : Adapter.Action (kinds o)} (hs : step argv W (.js o b) = some T) :
    W.Alone o ∧ ∃ S, Process.step argv o (W.host o) (.js b) = some S ∧ T = W.set o S := by
  simp only [step] at hs
  split at hs
  · rename_i halone
    obtain ⟨S, hS, rfl⟩ := Option.map_eq_some_iff.mp hs
    exact ⟨halone, S, hS, rfl⟩
  · cases hs

theorem step_cases (hs : step argv W a = some T) :
    (∃ o b S, a = .js o b ∧ W.Alone o ∧ Process.step argv o (W.host o) (.js b) = some S ∧
      T = W.set o S) ∨
    (∃ o caller m ans S, a = .answer o caller m ans ∧
      Process.step argv o (W.host o) (.answer caller m ans) = some S ∧ T = W.set o S) ∨
    (∃ caller p, a = .pipe (.queue (.push caller)) ∧
      Delivery.step W.pipe (.queue (.push caller)) = some p ∧
      T = ⟨p, fun o => side ((W.host o).pushed caller p)⟩) ∨
    (∃ e rest S, a = .pipe .immediate ∧ W.pipe.immediates = e :: rest ∧ W.Between ∧
      Process.step argv e.object (W.host e.object) (.pipe .immediate) = some S ∧
      T = W.set e.object S) ∨
    (∃ b p, a = .pipe b ∧ (∀ caller, b ≠ .queue (.push caller)) ∧ b ≠ .immediate ∧
      (∀ kind, b = .construct kind → kind = kindOfClass (kinds W.pipe.handlers.length)) ∧
      Delivery.step W.pipe b = some p ∧ T = { W with pipe := p }) := by
  cases a with
  | js o b =>
    left
    obtain ⟨halone, S, hS, rfl⟩ := js_step hs
    exact ⟨o, b, S, rfl, halone, hS, rfl⟩
  | answer o caller m ans =>
    right; left
    obtain ⟨S, hS, rfl⟩ := Option.map_eq_some_iff.mp hs
    exact ⟨o, caller, m, ans, S, rfl, hS, rfl⟩
  | pipe b =>
    right; right
    simp only [step] at hs
    split at hs
    · rename_i hbetween
      by_cases hpush : ∃ caller, b = .queue (.push caller)
      · left
        obtain ⟨caller, rfl⟩ := hpush
        obtain ⟨p, hp, rfl⟩ := Option.map_eq_some_iff.mp hs
        exact ⟨caller, p, rfl, hp, rfl⟩
      · by_cases himmediate : b = .immediate
        · right; left
          subst himmediate
          simp only [pipeStep] at hs
          split at hs
          · cases hs
          · rename_i e rest hi
            obtain ⟨S, hS, rfl⟩ := Option.map_eq_some_iff.mp hs
            exact ⟨e, rest, S, rfl, hi, hbetween rfl, hS, rfl⟩
        · right; right
          have hkind : ∀ kind, b = .construct kind →
              kind = kindOfClass (kinds W.pipe.handlers.length) := by
            rintro kind rfl
            by_contra hne
            simp [pipeStep, hne] at hs
          have hmap : (Delivery.step W.pipe b).map (fun p => { W with pipe := p }) = some T := by
            cases b with
            | immediate => exact absurd rfl himmediate
            | construct kind => simpa [pipeStep, ← hkind kind rfl] using hs
            | queue q =>
              cases q with
              | push caller => exact absurd ⟨caller, rfl⟩ hpush
              | _ => exact hs
            | _ => exact hs
          obtain ⟨p, hp, rfl⟩ := Option.map_eq_some_iff.mp hmap
          exact ⟨b, p, rfl, fun caller he => hpush ⟨caller, he⟩, himmediate, hkind, hp, rfl⟩
    · cases hs

theorem js_pipe {c : JsClass} {o : ℕ} {S U : Host c} {b : Adapter.Action c}
    (hs : Process.step argv o S (.js b) = some U) :
    U.pipe = S.pipe ∧ o < S.pipe.handlers.length := by
  have hbuilt : o < S.pipe.handlers.length := by
    by_contra hlt
    cases b <;> simp [Process.step, hlt] at hs
  rcases Process.step_cases hs with ⟨d, t, -, -, -, rfl⟩ | ⟨_, _, _, _, he, -⟩ | ⟨_, _, he, -⟩ |
    ⟨_, _, _, he, -⟩ | ⟨_, _, he, -⟩
  · exact ⟨rfl, hbuilt⟩
  · cases he
  · cases he
  · cases he
  · cases he

theorem answer_pipe {c : JsClass} {o : ℕ} {S U : Host c} {caller : AsyncQueue.Actor}
    {m : Method c} {ans : Answer} (hs : Process.step argv o S (.answer caller m ans) = some U) :
    Delivery.step S.pipe (.callback caller o (fun _ => none) (callback m ans)) = some U.pipe ∧
      U.obj = S.obj := by
  rcases Process.step_cases hs with ⟨_, _, he, -⟩ | ⟨caller', m', ans', p, he, -, hp, rfl⟩ |
    ⟨_, _, he, -⟩ | ⟨_, _, _, he, -⟩ | ⟨_, _, he, -⟩
  · cases he
  · obtain ⟨rfl, rfl, rfl⟩ : caller = caller' ∧ m = m' ∧ ans = ans' := by simpa using he
    exact ⟨hp, rfl⟩
  · cases he
  · cases he
  · cases he

theorem immediate_pipe {c : JsClass} {o : ℕ} {S U : Host c}
    (hs : Process.step argv o S (.pipe .immediate) = some U) :
    Delivery.step S.pipe .immediate = some U.pipe ∧ U.outstanding = S.outstanding ∧
      (U.obj = S.obj ∨ ∃ event args, U.obj = S.obj.emit event args) := by
  rcases Process.step_cases hs with ⟨_, _, he, -⟩ | ⟨_, _, _, _, he, -⟩ | ⟨_, _, he, -⟩ |
    ⟨e, rest, p, -, -, hp, ⟨-, -, rfl⟩ | ⟨-, rfl⟩⟩ | ⟨b, p, he, -, himm, -, rfl⟩
  · cases he
  · cases he
  · cases he
  · exact ⟨hp, rfl, Or.inr ⟨_, _, rfl⟩⟩
  · exact ⟨hp, rfl, Or.inl rfl⟩
  · exact absurd (by simpa using he.symm) himm

/-- Seen from one object, a step is a step of its own process or is not seen. -/
theorem step_host (ha : Shared W a) (hs : step argv W a = some T) (o : ℕ) :
    (T.host o = W.host o ∧ (notes W a).filterMap (markOf o) = []) ∨
    ∃ b, Process.Shared (W.host o) b ∧ Process.step argv o (W.host o) b = some (T.host o) ∧
      Process.marks o (W.host o) b = (notes W a).filterMap (markOf o) := by
  rcases step_cases hs with ⟨p, b, S, rfl, -, hS, rfl⟩ | ⟨p, caller, m, ans, S, rfl, hS, rfl⟩ |
    ⟨caller, p, rfl, hp, rfl⟩ | ⟨e, rest, S, rfl, hi, -, hS, rfl⟩ |
    ⟨b, p, rfl, hpush, himm, hkind, hp, rfl⟩
  · by_cases ho : o = p
    · subst ho
      right
      refine ⟨.js b, trivial, by rw [hS, host_set], ?_⟩
      simp [notes, List.filterMap_map]
    · left
      rw [host_set_other W ho, (js_pipe hS).1]
      refine ⟨rfl, ?_⟩
      simp [notes, List.filterMap_map, markOf_other (Ne.symm ho)]
  · right
    by_cases ho : o = p
    · subst ho
      exact ⟨.answer caller m ans, trivial, by rw [hS, host_set], rfl⟩
    · refine ⟨.pipe (.callback caller p (fun _ => none) (callback m ans)), trivial, ?_, rfl⟩
      have hpipe : (W.host o).pipe = (W.host p).pipe := rfl
      simp [Process.step, hpipe, (answer_pipe hS).1, host_set_other W ho]
  · right
    refine ⟨.pipe (.queue (.push caller)), trivial, ?_, rfl⟩
    have hpipe : Delivery.step (W.host o).pipe (.queue (.push caller)) = some p := hp
    rw [host_sides _ (pushed_pipe (W.host o) caller p)]
    simp [Process.step, hpipe]
  · right
    refine ⟨.pipe .immediate, trivial, ?_, ?_⟩
    · by_cases ho : o = e.object
      · subst ho
        rw [hS, host_set]
      · have hpipe : Delivery.step (W.host o).pipe .immediate = some S.pipe :=
          (immediate_pipe hS).1
        have himmediates : (W.host o).pipe.immediates = e :: rest := hi
        simp [Process.step, himmediates, hpipe, Ne.symm ho, host_set_other W ho]
    · by_cases ho : e.object = o
      · subst ho
        simp [notes, Process.marks, Objects.host, hi]
      · simp [notes, Process.marks, Objects.host, hi, ho, markOf_other ho]
  · right
    refine ⟨.pipe b, ?_, ?_, ?_⟩
    · cases b with
      | queue q => cases q <;> exact ha
      | _ => exact ha
    · have hpipe : Delivery.step (W.host o).pipe b = some p := hp
      cases b with
      | construct kind =>
        have hguard : ¬ ((W.host o).pipe.handlers.length = o ∧ kind ≠ kindOfClass (kinds o)) := by
          rintro ⟨hlen, hne⟩
          apply hne
          rw [hkind kind rfl]
          exact congrArg (fun i => kindOfClass (kinds i)) hlen
        simp only [Process.step, if_neg hguard, hpipe]
        rfl
      | queue q =>
        cases q with
        | push caller => exact absurd rfl (hpush caller)
        | _ => simp only [Process.step, hpipe]; rfl
      | immediate => exact absurd rfl himm
      | _ => simp only [Process.step, hpipe]; rfl
    · cases b with
      | immediate => exact absurd rfl himm
      | _ => rfl

theorem reach_part {W : Watched kinds}
    (h : Reach (watch argv) (unread Shared) (unwatched kinds) W) (o : ℕ) :
    Reach (Process.watch argv o) (unread Process.Shared) (Process.unwatched (kinds o))
      (part o W) := by
  apply h.refine_recorded (I := fun _ => True) (fun U : Objects kinds => U.host o) (markOf o)
    trivial (fun _ _ _ _ _ _ => trivial)
  intro U a V _ ha hs
  exact step_host ha hs o

theorem step_pipe {b : Delivery.Action} (hs : step argv W (.pipe b) = some T) :
    Delivery.step W.pipe b = some T.pipe ∧ ∀ o, (T.host o).outstanding = (W.host o).outstanding ∧
      ((T.host o).obj = (W.host o).obj ∨
        ∃ event args, (T.host o).obj = (W.host o).obj.emit event args) := by
  rcases step_cases hs with ⟨_, _, _, he, -⟩ | ⟨_, _, _, _, _, he, -⟩ | ⟨caller, p, he, hp, rfl⟩ |
    ⟨e, rest, S, he, -, -, hS, rfl⟩ | ⟨d, p, he, -, -, -, hp, rfl⟩
  · cases he
  · cases he
  · obtain rfl : b = .queue (.push caller) := by simpa using he
    refine ⟨hp, fun o => ?_⟩
    rw [host_sides _ (pushed_pipe (W.host o) caller p)]
    obtain ⟨hobj, hout⟩ := pushed_obj (W.host o) caller p
    exact ⟨hout, Or.inl hobj⟩
  · obtain rfl : b = .immediate := by simpa using he
    obtain ⟨hp, hout, hobj⟩ := immediate_pipe hS
    refine ⟨hp, fun o => ?_⟩
    by_cases ho : o = e.object
    · subst ho
      rw [host_set]
      exact ⟨hout, hobj⟩
    · rw [host_set_other W ho]
      exact ⟨rfl, Or.inl rfl⟩
  · obtain rfl : b = d := by simpa using he
    exact ⟨hp, fun o => ⟨rfl, Or.inl rfl⟩⟩

end Steps

section Turns

variable {argv : Emitted → List JsValue} {W T : Objects kinds}

def Single (W : Objects kinds) : Prop :=
  ∀ o, (W.host o).obj.running ≠ none →
    o < W.pipe.handlers.length ∧ ∀ p, p ≠ o → (W.host p).obj.running = none

theorem Single.of_same (h : Single W) (hlen : W.pipe.handlers.length ≤ T.pipe.handlers.length)
    (hsame : ∀ o, (T.host o).obj.running = (W.host o).obj.running) : Single T := by
  intro o ho
  rw [hsame] at ho
  obtain ⟨hlt, hother⟩ := h o ho
  exact ⟨Nat.lt_of_lt_of_le hlt hlen, fun p hp => by rw [hsame, hother p hp]⟩

theorem init_single (kinds : ℕ → JsClass) : Single (init kinds) :=
  fun _ ho => absurd rfl ho

theorem step_single (W : Objects kinds) (a : Action kinds) (T : Objects kinds) (h : Single W)
    (ha : Shared W a) (hs : step argv W a = some T) : Single T := by
  have hgrow : W.pipe.handlers.length ≤ T.pipe.handlers.length := by
    rcases step_host ha hs 0 with ⟨hsame, -⟩ | ⟨b, hb, hstep, -⟩
    · exact Nat.le_of_eq (congrArg (fun S => S.pipe.handlers.length) hsame.symm)
    · exact handlers_grow hb hstep
  cases a with
  | js o b =>
    obtain ⟨halone, S, hS, rfl⟩ := js_step hs
    obtain ⟨-, hbuilt⟩ := js_pipe hS
    have hother : ∀ p, p ≠ o → ((W.set o S).host p).obj.running = none := by
      intro p hp
      rw [host_set_other W hp]
      by_contra hne
      exact hne (halone p (h p hne).1 hp)
    intro p hp
    obtain rfl : p = o := by
      by_contra hne
      exact hp (hother p hne)
    exact ⟨Nat.lt_of_lt_of_le hbuilt hgrow, hother⟩
  | answer o caller m ans =>
    obtain ⟨S, hS, rfl⟩ := Option.map_eq_some_iff.mp hs
    apply h.of_same hgrow
    intro p
    by_cases hp : p = o
    · subst hp
      rw [host_set, (answer_pipe hS).2]
    · rw [host_set_other W hp]
  | pipe b =>
    apply h.of_same hgrow
    intro o
    rcases ((step_pipe hs).2 o).2 with hsame | ⟨event, args, hemit⟩
    · rw [hsame]
    · rw [hemit, Obj.emit_running]

end Turns

/-- The client of every object has stopped calling, and the SDK posts nothing but
completions; native methods may fail. -/
def Unasked (W : Objects kinds) : Action kinds → Prop
  | .js _ (.call _) => False
  | .js _ _ => True
  | .answer _ _ _ _ => True
  | .pipe (.queue (.enter _)) => True
  | .pipe (.queue (.push _)) => True
  | .pipe (.queue (.send _)) => True
  | .pipe a => LoopThread W.pipe a

instance (W : Objects kinds) (a : Action kinds) : Decidable (Unasked W a) :=
  match a with
  | .js _ (.call _) => .isFalse id
  | .js _ (.timer _) => .isTrue trivial
  | .js _ (.resume _ _) => .isTrue trivial
  | .js _ .register => .isTrue trivial
  | .js _ (.emit _ _) => .isTrue trivial
  | .answer _ _ _ _ => .isTrue trivial
  | .pipe (.queue (.enter _)) => .isTrue trivial
  | .pipe (.queue (.push _)) => .isTrue trivial
  | .pipe (.queue (.send _)) => .isTrue trivial
  | .pipe (.queue (.call _ _)) => .isFalse id
  | .pipe (.queue (.setCapacity _)) => .isFalse id
  | .pipe (.queue (.clear _)) => .isFalse id
  | .pipe (.queue .close) => .isFalse id
  | .pipe (.queue .wake) => .isTrue trivial
  | .pipe (.queue .acquire) => .isTrue trivial
  | .pipe (.queue .test) => .isTrue trivial
  | .pipe (.queue .finish) => .isTrue trivial
  | .pipe (.queue .leave) => .isTrue trivial
  | .pipe (.construct _) => .isFalse id
  | .pipe (.callback _ _ _ _) => .isFalse id
  | .pipe .checkBegin => inferInstanceAs (Decidable (W.pipe.immediates ≠ []))
  | .pipe .immediate => .isTrue trivial
  | .pipe .checkEnd => inferInstanceAs (Decidable (W.pipe.immediates = []))

noncomputable def sideWork {c : JsClass} (S : Host c) : ℕ :=
  17*(callsWork S.obj+turnWork S.obj)+16*operations S.outstanding

noncomputable def pipeWork (s : Pipe) : ℕ := callersWork s.queue+Delivery.work s

noncomputable def work (W : Objects kinds) : ℕ :=
  (Finset.range W.pipe.handlers.length).sum (fun o => sideWork (W.host o))+pipeWork W.pipe

theorem work_split {c : JsClass} (S : Host c) : Process.work S = sideWork S+pipeWork S.pipe := by
  simp only [Process.work, sideWork, pipeWork]
  omega

theorem sideWork_same {c : JsClass} {S U : Host c} (hout : U.outstanding = S.outstanding)
    (hobj : U.obj = S.obj ∨ ∃ event args, U.obj = S.obj.emit event args) :
    sideWork U = sideWork S ∧ U.obj.issued = S.obj.issued := by
  rcases hobj with hsame | ⟨event, args, hemit⟩
  · exact ⟨by rw [sideWork, sideWork, hsame, hout], by rw [hsame]⟩
  · have hturn : turnWork (S.obj.emit event args) = turnWork S.obj := by
      simp [turnWork, Obj.emit_running]
    refine ⟨?_, by rw [hemit, Obj.emit_issued]⟩
    rw [sideWork, sideWork, hemit, hout, emit_work, hturn]

section Measure

variable {argv : Emitted → List JsValue} {W T : Objects kinds} {a : Action kinds}

theorem Unasked.shared (h : Unasked W a) : Shared W a := by
  cases a with
  | js o b => trivial
  | answer o caller m ans => trivial
  | pipe b =>
    cases b with
    | queue q => cases q <;> trivial
    | _ => trivial

theorem Unasked.pipe {b : Delivery.Action} (h : Unasked W (.pipe b)) :
    (∃ q a, b = .queue q ∧ (q = .enter a ∨ q = .push a ∨ q = .send a)) ∨
      LoopThread W.pipe b := by
  cases b with
  | queue q =>
    cases q with
    | enter a => exact Or.inl ⟨_, a, rfl, by simp⟩
    | push a => exact Or.inl ⟨_, a, rfl, by simp⟩
    | send a => exact Or.inl ⟨_, a, rfl, by simp⟩
    | _ => exact Or.inr h
  | _ => exact Or.inr h

theorem Unasked.js {o : ℕ} {b : Adapter.Action (kinds o)} (h : Unasked W (.js o b)) :
    Uncalled (W.host o) (.js b) := by
  cases b with
  | call m => exact h.elim
  | resume i r =>
    cases r with
    | failed code => exact Or.inr rfl
    | _ => exact Or.inl trivial
  | _ => exact Or.inl trivial

theorem set_lowers {o : ℕ} {S : Host (kinds o)} (ho : o < W.pipe.handlers.length)
    (hlen : S.pipe.handlers.length = W.pipe.handlers.length)
    (hlt : Process.work S < Process.work (W.host o)) : work (W.set o S) < work W := by
  have hown : (fun p => sideWork ((W.set o S).host p)) =
      Function.update (fun p => sideWork (W.host p)) o (sideWork S) := by
    ext p
    by_cases hp : p = o
    · subst hp
      simp
    · rw [Function.update_of_ne hp, host_set_other W hp]
      rfl
  have hsum := sum_update (Finset.range W.pipe.handlers.length) (fun p => sideWork (W.host p)) o
    (Finset.mem_range.mpr ho) (sideWork S)
  have hpipe : (W.set o S).pipe = S.pipe := rfl
  have hhost : (W.host o).pipe = W.pipe := rfl
  rw [work_split, work_split, hhost] at hlt
  rw [work, work, hown, hpipe, hlen]
  omega

theorem unasked_handlers (ha : Unasked W a) (hs : step argv W a = some T) :
    T.pipe.handlers = W.pipe.handlers := by
  cases a with
  | js o b =>
    obtain ⟨-, S, hS, rfl⟩ := js_step hs
    exact congrArg Pipe.handlers (js_pipe hS).1
  | answer o caller m ans =>
    obtain ⟨S, hS, rfl⟩ := Option.map_eq_some_iff.mp hs
    rcases step_handlers (answer_pipe hS).1 with hsame | ⟨kind, he, -⟩
    · exact hsame
    · cases he
  | pipe b =>
    rcases step_handlers (step_pipe hs).1 with hsame | ⟨kind, rfl, -⟩
    · exact hsame
    · exact ha.elim

theorem step_lowers
    (h : ∀ o, Reach (Process.step argv o) Process.Shared (Process.init _) (W.host o))
    (hsane : ∀ o, Sane (W.host o).obj) (ha : Unasked W a) (hs : step argv W a = some T) :
    (∀ o, (T.host o).obj.issued = (W.host o).obj.issued) ∧ work T < work W := by
  have hlen := congrArg List.length (unasked_handlers ha hs)
  have hothers : ∀ (o : ℕ) (S : Host (kinds o)), S.obj.issued = (W.host o).obj.issued →
      ∀ p, ((W.set o S).host p).obj.issued = (W.host p).obj.issued := by
    intro o S hS p
    by_cases hp : p = o
    · subst hp
      rw [host_set, hS]
    · rw [host_set_other W hp]
  cases a with
  | js o b =>
    obtain ⟨-, S, hS, rfl⟩ := js_step hs
    obtain ⟨hissued, hlt⟩ := Process.step_lowers (h o) (hsane o) ha.js hS
    exact ⟨hothers o S hissued, set_lowers (js_pipe hS).2 hlen hlt⟩
  | answer o caller m ans =>
    obtain ⟨S, hS, rfl⟩ := Option.map_eq_some_iff.mp hs
    have hun : Uncalled (W.host o) (.answer caller m ans) := Or.inl (by trivial)
    obtain ⟨hissued, hlt⟩ := Process.step_lowers (h o) (hsane o) hun hS
    have hbuilt : o < W.pipe.handlers.length := by
      by_contra hge
      have hstep : Delivery.step W.pipe _ = _ := (answer_pipe hS).1
      simp [Delivery.step, List.getElem?_eq_none (Nat.le_of_not_lt hge)] at hstep
    exact ⟨hothers o S hissued, set_lowers hbuilt hlen hlt⟩
  | pipe b =>
    obtain ⟨hp, hobjects⟩ := step_pipe hs
    have hsame := fun o => sideWork_same (hobjects o).1 (hobjects o).2
    have hlt := pipe_lowers (reach_few (reach_pipe (h 0))) ha.pipe hp
    have hhost : (W.host 0).pipe = W.pipe := rfl
    rw [hhost] at hlt
    refine ⟨fun o => (hsame o).2, ?_⟩
    have hsum : (Finset.range T.pipe.handlers.length).sum (fun o => sideWork (T.host o)) =
        (Finset.range W.pipe.handlers.length).sum fun o => sideWork (W.host o) := by
      rw [hlen]
      exact Finset.sum_congr rfl fun o _ => (hsame o).1
    rw [work, work, hsum]
    simp only [pipeWork]
    omega

theorem rest_between (hsingle : Single W) (hrest : AtRest (step argv) Unasked W) : W.Between := by
  intro o ho
  by_contra hne
  obtain ⟨i, hi⟩ := Option.ne_none_iff_exists'.mp hne
  have hstuck := hrest (.js o .register) trivial
  have halone : W.Alone o := fun p _ hp => (hsingle o hne).2 p hp
  have hrun : (W.host o).obj.running = some i := hi
  have hbuilt : o < (W.host o).pipe.handlers.length := ho
  simp [step, halone, Process.step, hbuilt, Adapter.step, hrun] at hstuck

theorem rest_immediate (hsingle : Single W) (hbetween : W.Between)
    (h : pipeStep argv W .immediate = none) (o : ℕ) :
    Process.step argv o (W.host o) (.pipe .immediate) = none := by
  have hidle : ∀ p, (W.host p).obj.running = none := by
    intro p
    by_contra hne
    exact hne (hbetween p (hsingle p hne).1)
  cases hi : W.pipe.immediates with
  | nil =>
    have himmediates : (W.host o).pipe.immediates = [] := hi
    simp [Process.step, himmediates]
  | cons e rest =>
    have himmediates : ∀ p, (W.host p).pipe.immediates = e :: rest := fun _ => hi
    simp only [pipeStep, hi, Option.map_eq_none_iff] at h
    have hnone : Delivery.step W.pipe .immediate = none := by
      by_contra hne
      obtain ⟨p, hp⟩ := Option.ne_none_iff_exists'.mp hne
      have hhost : Delivery.step (W.host e.object).pipe .immediate = some p := hp
      simp [Process.step, himmediates, hhost, Adapter.step, hidle] at h
    have hhost : Delivery.step (W.host o).pipe .immediate = none := hnone
    simp [Process.step, himmediates, hhost]

/-- When nothing can go on, no object can by itself. -/
theorem rest_host (hsingle : Single W) (hrest : AtRest (step argv) Unasked W) (o : ℕ) :
    AtRest (Process.step argv o) Finishing (W.host o) := by
  have hbetween := rest_between hsingle hrest
  have hpipe : ∀ b, Unasked W (.pipe b) → pipeStep argv W b = none := by
    intro b hb
    have hnone := hrest (.pipe b) hb
    simpa [step, hbetween] using hnone
  have hstuck : ∀ b, Unasked W (.pipe b) → b ≠ .immediate →
      Delivery.step (W.host o).pipe b = none := by
    intro b hb himm
    have hnone := hpipe b hb
    cases b with
    | immediate => exact absurd rfl himm
    | construct kind => exact hb.elim
    | queue q =>
      cases q with
      | call caller e => exact hb.elim
      | setCapacity n => exact hb.elim
      | clear caller => exact hb.elim
      | close => exact hb.elim
      | _ => exact Option.map_eq_none_iff.mp hnone
    | _ => exact Option.map_eq_none_iff.mp hnone
  intro a ha
  cases a with
  | js b =>
    have halone : W.Alone o := fun p hp _ => hbetween p hp
    have hun : Unasked W (.js o b) := by
      cases b with
      | call m => exact ha.elim
      | _ => trivial
    have hnone := hrest (.js o b) hun
    rw [step, if_pos halone] at hnone
    exact Option.map_eq_none_iff.mp hnone
  | answer caller m ans => exact Option.map_eq_none_iff.mp (hrest (.answer o caller m ans) trivial)
  | pipe b =>
    have hun : Unasked W (.pipe b) := by
      cases b with
      | queue q => cases q <;> exact ha
      | _ => exact ha
    cases b with
    | immediate => exact rest_immediate hsingle hbetween (hpipe _ hun) o
    | construct kind => exact hun.elim
    | queue q =>
      have hnone := hstuck _ hun (by simp)
      cases q <;> simp [Process.step, hnone]
    | _ => simp [Process.step, hstuck _ hun (by simp)]

end Measure

structure Underway (argv : Emitted → List JsValue) (built : ℕ)
    (issued : (o : ℕ) → Method (kinds o) → ℕ) (W : Watched kinds) : Prop where
  reached : Reach (watch argv) (unread Shared) (unwatched kinds) W
  built : W.state.pipe.handlers.length = built
  issued : ∀ o, (W.state.host o).obj.issued = issued o

section Underway

variable {argv : Emitted → List JsValue} {built : ℕ} {issued : (o : ℕ) → Method (kinds o) → ℕ}
  {W T : Watched kinds} {a : Action kinds}

theorem Underway.single (h : Underway argv built issued W) : Single W.state :=
  h.reached.unrecorded.invariant (init_single kinds) step_single

theorem step_underway (hargv : ∀ e n, values (fun _ => none) e = some n → argv e = n.2)
    (h : Underway argv built issued W) (ha : unread Unasked W a) (hs : watch argv W a = some T) :
    Underway argv built issued T ∧ work T.state < work W.state := by
  have hpart := reach_part h.reached
  have hsane : ∀ o, Sane (W.state.host o).obj :=
    fun o => (reach_underway (reach_own hargv (hpart o))).sorted.sane
  have hreached := h.reached.tail (a := a) (Unasked.shared ha) hs
  obtain ⟨U, hU, rfl⟩ := recorded_cases hs
  obtain ⟨hissued, hlt⟩ := step_lowers (fun o => (hpart o).unrecorded) hsane ha hU
  have hlen := congrArg List.length (unasked_handlers ha hU)
  exact ⟨⟨hreached, hlen.trans h.built, fun o => (hissued o).trans (h.issued o)⟩, hlt⟩

theorem Underway.rest (hargv : ∀ e n, values (fun _ => none) e = some n → argv e = n.2)
    (h : Underway argv built issued W) (hrest : AtRest (watch argv) (unread Unasked) W) :
    ∀ o < built, Stranded (issued o) (part o W) := by
  intro o ho
  have hstill : AtRest (step argv) Unasked W.state := fun a ha => recorded_eq_none.mp (hrest a ha)
  have hfailing : Failing argv o (issued o) (part o W) :=
    ⟨reach_part h.reached o, by rw [← h.built] at ho; exact ho, h.issued o⟩
  exact hfailing.rest hargv (rest_host h.single hstill o)

end Underway

/-- A process with any number of SDK and channel objects, all used by their clients,
over one queue and one thread for JavaScript, where native methods fail in any way.
Each object goes through a run of its own process. Once the clients make no more
calls, every way to go on ends within `work` steps, and it ends with every event
emitted and, on every object, just the promises pending that hang. -/
theorem objects_come_to_rest (kinds : ℕ → JsClass) (argv : Emitted → List JsValue)
    (hargv : ∀ e n, values (fun _ => none) e = some n → argv e = n.2) (W : Watched kinds)
    (h : Reach (watch argv) (unread Shared) (unwatched kinds) W) :
    (∀ o, Reach (Process.watch argv o) (unread Process.Shared) (Process.unwatched (kinds o))
      (part o W)) ∧
    (∀ as T, run (watch argv) (unread Unasked) W as = some T → as.length ≤ work W.state) ∧
    (∀ T, Reach (watch argv) (unread Unasked) W T → AtRest (watch argv) (unread Unasked) T →
      ∀ o < W.state.pipe.handlers.length,
        Stranded (W.state.host o).obj.issued (part o T)) ∧
    ∃ as T, run (watch argv) (unread Unasked) W as = some T ∧
      ∀ o < W.state.pipe.handlers.length,
        Stranded (W.state.host o).obj.issued (part o T) := by
  refine ⟨reach_part h, ?_⟩
  apply comes_to_rest (f := fun U => work U.state)
    (I := Underway argv W.state.pipe.handlers.length fun o => (W.state.host o).obj.issued)
  · exact fun _ _ _ hU ha hs => step_underway hargv hU ha hs
  · exact fun _ hT hrest => hT.rest hargv hrest
  · exact ⟨h, rfl, fun _ => rfl⟩

def sdkAndChannel : ℕ → JsClass
  | 0 => .AgoraRtmSDK
  | _ => .AgoraRtmChannel

-- A login succeeds while a join fails by its return code; the completion of the
-- login is in the queue, and another join waits.
def loginAndJoin : List (Action sdkAndChannel) :=
  [.pipe (.construct .controller), .pipe (.construct .channel), .js 0 (.call .login),
    .js 1 (.call .join), .js 0 (.timer (.login, 0)), .js 1 (.timer (.join, 0)),
    .js 0 (.resume (.login, 0) (.accepted 0)), .answer 0 (.producer 0) .login .success,
    .js 0 .register, .js 1 (.resume (.join, 0) (.failed (-1))), .js 1 .register,
    .pipe (.queue (.enter (.producer 0))), .pipe (.queue (.push (.producer 0))),
    .js 1 (.call .join)]

def joinFailed : Watched sdkAndChannel :=
  final (watch ownArgs) (unread Shared) (unwatched sdkAndChannel) loginAndJoin

theorem objects_come_to_rest_two :
    ∃ as T, run (watch ownArgs) (unread Unasked) joinFailed as = some T ∧
      ∀ o < joinFailed.state.pipe.handlers.length,
        Stranded (joinFailed.state.host o).obj.issued (part o T) :=
  (objects_come_to_rest sdkAndChannel ownArgs (fun e n h => by simp [ownArgs, h]) joinFailed
    (reach_final rfl)).2.2.2

end AgoraRtm.Ensemble
