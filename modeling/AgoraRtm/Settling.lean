import AgoraRtm.Process
import AgoraRtm.Quiescence
import AgoraRtm.Draining

/-!
# A process comes to rest

The client stops calling and the SDK has nothing more to report than the
completions it owes. Threads inside `async_call` go through, the loop thread
drains and emits, timers expire and continuations run. Where failures throw this
ends, in whatever order it goes on, with every promise settled.
-/

set_option autoImplicit false

namespace AgoraRtm.Process
open Runs Adapter NativeEvents Delivery NativeSystem Reception Settlement

variable {c : JsClass}

/-- No calls, no failures by return code, and nothing posted but completions. -/
def Finishing (S : Host c) : Action c → Prop
  | .js (.call _) => False
  | .js (.resume _ (.failed _)) => False
  | .js _ => True
  | .answer _ _ _ => True
  | .pipe (.queue (.enter _)) => True
  | .pipe (.queue (.push _)) => True
  | .pipe (.queue (.send _)) => True
  | .pipe a => LoopThread S.pipe a

instance (S : Host c) (a : Action c) : Decidable (Finishing S a) :=
  match a with
  | .js (.call _) => .isFalse id
  | .js (.resume _ (.failed _)) => .isFalse id
  | .js (.resume _ (.threw _)) => .isTrue trivial
  | .js (.resume _ (.accepted _)) => .isTrue trivial
  | .js (.timer _) => .isTrue trivial
  | .js .register => .isTrue trivial
  | .js (.emit _ _) => .isTrue trivial
  | .answer _ _ _ => .isTrue trivial
  | .pipe (.queue (.enter _)) => .isTrue trivial
  | .pipe (.queue (.push _)) => .isTrue trivial
  | .pipe (.queue (.send _)) => .isTrue trivial
  | .pipe (.queue (.call _ _)) => .isFalse id
  | .pipe (.queue (.setCapacity _)) => .isFalse id
  | .pipe (.queue (.clear _)) => .isFalse id
  | .pipe (.queue .close) => .isFalse id
  | .pipe (.queue .wake) => .isTrue trivial
  | .pipe (.queue .acquire) => .isTrue trivial
  | .pipe (.queue .test) => .isTrue trivial
  | .pipe (.queue .finish) => .isTrue trivial
  | .pipe (.queue .leave) => .isTrue trivial
  | .pipe (.construct _) => .isFalse id
  | .pipe (.callback _ _ _ _) => .isFalse id
  | .pipe .checkBegin => inferInstanceAs (Decidable (S.pipe.immediates ≠ []))
  | .pipe .immediate => .isTrue trivial
  | .pipe .checkEnd => inferInstanceAs (Decidable (S.pipe.immediates = []))

def Action.fails : Action c → Bool
  | .js (.resume _ (.failed _)) => true
  | _ => false

/-- No calls, and nothing posted but completions; native methods may fail. -/
def Uncalled (S : Host c) (a : Action c) : Prop := Finishing S a ∨ a.fails = true

instance (S : Host c) (a : Action c) : Decidable (Uncalled S a) :=
  inferInstanceAs (Decidable (_ ∨ _))

/-- What a caller has before it, with what its push and its wake-up cost the
loop thread. -/
def pcWork : AsyncQueue.Pc Posted → ℕ
  | .idle => 0
  | .checked _ => 15
  | .locked _ _ => 14
  | .pushed => 5

noncomputable def callersWork (q : AsyncQueue.State Posted) : ℕ := finsum (pcWork ∘ q.pcs)

noncomputable def work (S : Host c) : ℕ :=
  17*(callsWork S.obj+turnWork S.obj)+16*operations S.outstanding+callersWork S.pipe.queue+
    Delivery.work S.pipe

def FewInside (q : AsyncQueue.State Posted) : Prop := (pcWork ∘ q.pcs).support.Finite

section Callers

variable {q r : AsyncQueue.State Posted}

theorem few_update (h : FewInside q) {a : AsyncQueue.Actor} {pc : AsyncQueue.Pc Posted}
    (hr : r.pcs = Function.update q.pcs a pc) : FewInside r := by
  unfold FewInside
  rw [hr, Function.comp_update]
  exact (h.insert a).subset (support_update _ a _)

theorem callersWork_update (h : FewInside q) {a : AsyncQueue.Actor} {pc : AsyncQueue.Pc Posted}
    (hr : r.pcs = Function.update q.pcs a pc) :
    callersWork r+pcWork (q.pcs a) = callersWork q+pcWork pc := by
  rw [callersWork, hr, Function.comp_update]
  exact finsum_update (pcWork ∘ q.pcs) h a (pcWork pc)

theorem step_pcs {b : AsyncQueue.Action Posted} (h : AsyncQueue.step q b = some r) :
    r.pcs = q.pcs ∨ ∃ a pc, r.pcs = Function.update q.pcs a pc := by
  cases b with
  | call a e =>
    rcases (AsyncQueue.call_cases h).2 with ⟨-, rfl⟩ | ⟨-, rfl⟩
    · exact Or.inl rfl
    · exact Or.inr ⟨a, _, rfl⟩
  | enter a =>
    obtain ⟨e, -, -, rfl⟩ := AsyncQueue.step_enter h
    exact Or.inr ⟨a, _, rfl⟩
  | push a =>
    obtain ⟨e, bounded, -, rfl⟩ := AsyncQueue.step_push h
    refine Or.inr ⟨a, .pushed, ?_⟩
    rw [← (AsyncQueue.evict_aside q bounded).2.1]
    rfl
  | send a =>
    obtain ⟨-, rfl⟩ := AsyncQueue.step_send h
    exact Or.inr ⟨a, _, rfl⟩
  | setCapacity n => obtain rfl := Option.some.inj h; exact Or.inl rfl
  | clear a => obtain ⟨-, -, -, rfl⟩ := AsyncQueue.step_clear h; exact Or.inl rfl
  | close => obtain rfl := Option.some.inj h; exact Or.inl rfl
  | wake => obtain ⟨-, -, rfl⟩ := AsyncQueue.step_wake h; exact Or.inl rfl
  | acquire => obtain ⟨-, -, rfl⟩ := AsyncQueue.step_acquire h; exact Or.inl rfl
  | test =>
    obtain ⟨-, rfl⟩ := AsyncQueue.step_test h
    rcases AsyncQueue.drainTest_cases q with ⟨-, hd⟩ | ⟨e, rest, -, hd⟩ <;> rw [hd] <;>
      exact Or.inl rfl
  | finish => obtain ⟨e, -, -, rfl⟩ := AsyncQueue.step_finish h; exact Or.inl rfl
  | leave => obtain ⟨-, rfl⟩ := AsyncQueue.step_leave h; exact Or.inl rfl

theorem step_few {b : AsyncQueue.Action Posted} (hq : FewInside q)
    (h : AsyncQueue.step q b = some r) : FewInside r := by
  rcases step_pcs h with hsame | ⟨a, pc, hpcs⟩
  · unfold FewInside
    rw [hsame]
    exact hq
  · exact few_update hq hpcs

end Callers

section Pipes

variable {s t : Pipe}

theorem moved_lowers (h : FewInside s.queue) {r : AsyncQueue.State Posted} {a : AsyncQueue.Actor}
    {pc : AsyncQueue.Pc Posted} (n k : ℕ) (hpcs : r.pcs = Function.update s.queue.pcs a pc)
    (hloop : r.loop = s.queue.loop) (hlen : r.q.length ≤ s.queue.q.length+n)
    (hpending : r.pending = s.queue.pending ∨ 4 ≤ k)
    (hless : pcWork pc+8*n+k < pcWork (s.queue.pcs a)) :
    callersWork r+Delivery.work { s with queue := r } <
      callersWork s.queue+Delivery.work s := by
  have hsum := callersWork_update h hpcs
  have hpend : (if r.pending then 4 else 0) ≤ (if s.queue.pending then 4 else 0)+k := by
    rcases hpending with hsame | hk
    · rw [hsame]
      exact Nat.le_add_right _ _
    · split <;> omega
  have hcheck : checkWork { s with queue := r } = checkWork s := rfl
  simp only [Delivery.work, hloop, hcheck]
  omega

/-- What a caller does in `async_call` costs it more than it costs the loop. -/
theorem caller_lowers (h : FewInside s.queue) {b : AsyncQueue.Action Posted}
    {a : AsyncQueue.Actor} (hb : b = .enter a ∨ b = .push a ∨ b = .send a)
    (hs : queueStep s b = some t) :
    callersWork t.queue+Delivery.work t < callersWork s.queue+Delivery.work s := by
  obtain ⟨r, hr, rfl⟩ := Option.map_eq_some_iff.mp hs
  have hnil : fired s b = [] := by rcases hb with rfl | rfl | rfl <;> rfl
  rw [hnil, List.append_nil]
  rcases hb with rfl | rfl | rfl
  · obtain ⟨e, -, hpc, rfl⟩ := AsyncQueue.step_enter hr
    exact moved_lowers h 0 0 rfl rfl (Nat.le_refl _) (Or.inl rfl) (by simp [hpc, pcWork])
  · obtain ⟨e, bounded, hpc, rfl⟩ := AsyncQueue.step_push hr
    have hless : pcWork .pushed+8*1+0 < pcWork (s.queue.pcs a) := by simp [hpc, pcWork]
    rcases AsyncQueue.evict_cases s.queue bounded with he | ⟨_, rest, -, -, hq, he⟩ <;> rw [he]
    · exact moved_lowers h 1 0 rfl rfl (by simp [AsyncQueue.append]) (Or.inl rfl) hless
    · exact moved_lowers h 1 0 rfl rfl (by simp [AsyncQueue.append, hq]) (Or.inl rfl) hless
  · obtain ⟨hpc, rfl⟩ := AsyncQueue.step_send hr
    exact moved_lowers h 0 4 rfl rfl (Nat.le_refl _) (Or.inr (Nat.le_refl _))
      (by simp [hpc, pcWork])

theorem step_handlers {b : Delivery.Action} (hs : Delivery.step s b = some t) :
    t.handlers = s.handlers ∨ ∃ kind, b = .construct kind ∧
      t.handlers = s.handlers ++ [subscribeEvents kind s.handlers.length] := by
  rcases pipe_cases hs with ⟨kind, rfl, rfl⟩ | ⟨_, _, _, _, _, -, -, hq⟩ | ⟨_, -, -, hq⟩ |
    ⟨_, -, rfl⟩ | ⟨_, _, -, -, rfl⟩
  · exact Or.inr ⟨kind, rfl, rfl⟩
  · obtain ⟨_, -, rfl⟩ := Option.map_eq_some_iff.mp hq
    exact Or.inl rfl
  · obtain ⟨_, -, rfl⟩ := Option.map_eq_some_iff.mp hq
    exact Or.inl rfl
  · exact Or.inl rfl
  · exact Or.inl rfl

theorem pipe_lowers (h : FewInside s.queue) {b : Delivery.Action}
    (hb : (∃ q a, b = .queue q ∧ (q = .enter a ∨ q = .push a ∨ q = .send a)) ∨ LoopThread s b)
    (hs : Delivery.step s b = some t) :
    callersWork t.queue+Delivery.work t < callersWork s.queue+Delivery.work s := by
  rcases hb with ⟨q, a, rfl, hq⟩ | hloop
  · have hqueue : queueStep s q = some t := by rcases hq with rfl | rfl | rfl <;> exact hs
    exact caller_lowers h hq hqueue
  · have hsame : callersWork t.queue = callersWork s.queue := by
      rw [callersWork, (loop_keeps hloop hs).1, callersWork]
    have hless := loop_lowers hloop hs
    omega

end Pipes

section Reached

variable {argv : Emitted → List JsValue} {o : ℕ} {S T : Host c} {a : Action c}

theorem Finishing.throwing (h : Finishing S a) : Throwing S a := by
  cases a with
  | js b =>
    cases b with
    | resume i r => cases r <;> trivial
    | _ => trivial
  | answer caller m ans => trivial
  | pipe b =>
    cases b with
    | queue q => cases q <;> trivial
    | _ => trivial

theorem Uncalled.shared (h : Uncalled S a) : Shared S a := by
  rcases h with hfin | hfails
  · exact hfin.throwing.shared
  · cases a with
    | js b => trivial
    | _ => cases hfails

theorem Uncalled.js {b : Adapter.Action c} (h : Uncalled S (.js b)) (m : Method c) :
    b ≠ .call m := by
  rintro rfl
  rcases h with hfin | hfails
  · exact hfin
  · cases hfails

theorem Uncalled.pipe {b : Delivery.Action} (h : Uncalled S (.pipe b)) :
    (∃ q a, b = .queue q ∧ (q = .enter a ∨ q = .push a ∨ q = .send a)) ∨
      LoopThread S.pipe b := by
  have hfin : Finishing S (.pipe b) := h.resolve_right (by simp [Action.fails])
  cases b with
  | queue q =>
    cases q with
    | enter a => exact Or.inl ⟨_, a, rfl, by simp⟩
    | push a => exact Or.inl ⟨_, a, rfl, by simp⟩
    | send a => exact Or.inl ⟨_, a, rfl, by simp⟩
    | _ => exact Or.inr hfin
  | _ => exact Or.inr hfin

theorem pushed_pipe (S : Host c) (caller : AsyncQueue.Actor) (p : Pipe) :
    (S.pushed caller p).pipe = p := by
  unfold Host.pushed
  split <;> rfl

theorem pushed_obj (S : Host c) (caller : AsyncQueue.Actor) (p : Pipe) :
    (S.pushed caller p).obj = S.obj ∧ (S.pushed caller p).outstanding = S.outstanding := by
  unfold Host.pushed
  split <;> exact ⟨rfl, rfl⟩

theorem step_pipe (ha : Shared S a) (hs : step argv o S a = some T) :
    T.pipe = S.pipe ∨ ∃ b, Delivery.step S.pipe b = some T.pipe ∧ Used S.pipe b ∧
      ∀ kind, b = .construct kind → a = .pipe b := by
  rcases step_cases hs with ⟨b, t, rfl, -, -, rfl⟩ | ⟨caller, m, ans, p, rfl, -, hp, rfl⟩ |
    ⟨caller, p, rfl, hp, rfl⟩ | ⟨e, rest, p, rfl, -, hp, ⟨-, -, rfl⟩ | ⟨-, rfl⟩⟩ |
    ⟨b, p, rfl, -, -, hp, rfl⟩
  · exact Or.inl rfl
  · exact Or.inr ⟨_, hp, by trivial, by simp⟩
  · rw [pushed_pipe]
    exact Or.inr ⟨_, hp, by trivial, by simp⟩
  · exact Or.inr ⟨_, hp, by trivial, by simp⟩
  · exact Or.inr ⟨_, hp, by trivial, by simp⟩
  · exact Or.inr ⟨b, hp, ha.used, fun _ _ => rfl⟩

theorem reach_pipe (h : Reach (step argv o) Shared (init c) S) :
    Reach Delivery.step Used Delivery.init S.pipe := by
  apply h.refine (I := fun _ => True) Host.pipe trivial (fun _ _ _ _ _ _ => trivial)
  intro S a T _ ha hs
  rcases step_pipe ha hs with hsame | ⟨b, hp, hb, -⟩
  · rw [hsame]
    exact Reach.refl _
  · exact Reach.single hb hp

theorem reach_few {s : Pipe} (h : Reach Delivery.step Used Delivery.init s) :
    FewInside s.queue := by
  apply h.invariant (I := fun s => FewInside s.queue)
  · unfold FewInside
    simp [Delivery.init, AsyncQueue.init, pcWork, Function.comp_def]
  · intro s b t hs _ ht
    rcases pipe_cases ht with ⟨_, -, rfl⟩ | ⟨_, _, _, _, _, -, -, hq⟩ | ⟨_, -, -, hq⟩ |
      ⟨_, -, rfl⟩ | ⟨_, _, -, -, rfl⟩
    · exact hs
    · exact step_few hs (queueStep_inv hq).1
    · exact step_few hs (queueStep_inv hq).1
    · exact hs
    · exact hs

def Typed (o : ℕ) (S : Host c) : Prop :=
  ∀ handler, S.pipe.handlers[o]? = some handler → handler.kind = kindOfClass c

theorem step_typed (S : Host c) (a : Action c) (T : Host c) (hS : Typed o S) (ha : Shared S a)
    (hs : step argv o S a = some T) : Typed o T := by
  rcases step_pipe ha hs with hsame | ⟨b, hp, -, hown⟩
  · unfold Typed
    rw [hsame]
    exact hS
  rcases step_handlers hp with hsame | ⟨kind, rfl, hnew⟩
  · unfold Typed
    rw [hsame]
    exact hS
  · obtain rfl := hown kind rfl
    simp only [step] at hs
    split at hs
    · cases hs
    · rename_i hkind
      intro handler hh
      rw [hnew] at hh
      by_cases ho : S.pipe.handlers.length = o
      · have hsame : kind = kindOfClass c := by_contra fun hne => hkind ⟨ho, hne⟩
        subst ho
        simp only [List.getElem?_concat_length, Option.some.injEq] at hh
        rw [← hh, ← hsame]
        rfl
      · rw [List.getElem?_append] at hh
        split at hh
        · exact hS handler hh
        · rename_i hlt
          have hlast : o - S.pipe.handlers.length ≠ 0 := by omega
          simp [hlast] at hh

theorem reach_typed (h : Reach (step argv o) Shared (init c) S) : Typed o S := by
  apply h.invariant (I := Typed o) _ step_typed
  intro handler hh
  cases hh

theorem handlers_grow (ha : Shared S a) (hs : step argv o S a = some T) :
    S.pipe.handlers.length ≤ T.pipe.handlers.length := by
  rcases step_pipe ha hs with hsame | ⟨b, hp, -, -⟩
  · rw [hsame]
  · rcases step_handlers hp with hsame | ⟨kind, -, hnew⟩
    · rw [hsame]
    · simp [hnew]

end Reached

section Concluding

variable {argv : Emitted → List JsValue} {o : ℕ} {S T : Host c} {a : Action c}

structure Concluding (argv : Emitted → List JsValue) (o : ℕ) (issued : Method c → ℕ)
    (S : Host c) : Prop where
  reached : Reach (step argv o) Throwing (init c) S
  built : o < S.pipe.handlers.length
  issued : S.obj.issued = issued

theorem Concluding.shared {issued : Method c → ℕ} (h : Concluding argv o issued S) :
    Reach (step argv o) Shared (init c) S :=
  h.reached.mono fun _ _ => Throwing.shared

theorem Concluding.wound {issued : Method c → ℕ} (h : Concluding argv o issued S)
    (hargv : ∀ e n, values (fun _ => none) e = some n → argv e = n.2) :
    Wound issued (view argv o S) :=
  ⟨reach_supplied (reach_view hargv h.reached), reach_accounted (reach_view hargv h.reached),
    h.issued⟩

theorem answer_lowers (hlinked : Linked o S) (hfew : FewInside S.pipe.queue)
    {caller : AsyncQueue.Actor} {m : Method c} {ans : Answer} {p : Pipe}
    (hpos : 0 < S.outstanding m)
    (hp : Delivery.step S.pipe (.callback caller o (fun _ => none) (callback m ans)) = some p) :
    16*operations (Function.update S.outstanding m (S.outstanding m-1))+callersWork p.queue+
      Delivery.work p < 16*operations S.outstanding+callersWork S.pipe.queue+
      Delivery.work S.pipe := by
  have hout := operations_update S.outstanding m (S.outstanding m-1)
  rcases pipe_cases hp with ⟨_, he, -⟩ | ⟨caller', i, m', cb, task, -, -, hq⟩ | ⟨_, he, -⟩ |
    ⟨_, he, -⟩ | ⟨_, _, he, -⟩
  · cases he
  · obtain ⟨hidle, hqueue⟩ := hlinked.call hq
    have hsum := callersWork_update hfew (r := p.queue) (a := caller')
      (congrArg AsyncQueue.State.pcs hqueue)
    obtain ⟨r, -, rfl⟩ := Option.map_eq_some_iff.mp hq
    obtain rfl : r = _ := hqueue
    have hwork : Delivery.work { S.pipe with
        queue := S.pipe.queue.setPc caller' (.checked ⟨i, task⟩)
        immediates := S.pipe.immediates ++ [] } = Delivery.work S.pipe := by
      rw [List.append_nil]
      rfl
    rw [hidle] at hsum
    simp only [pcWork, fired, hwork] at hsum ⊢
    omega
  · cases he
  · rcases he with he | he <;> cases he
  · cases he

theorem step_lowers (h : Reach (step argv o) Shared (init c) S) (hsane : Sane S.obj)
    (ha : Uncalled S a) (hs : step argv o S a = some T) :
    T.obj.issued = S.obj.issued ∧ work T < work S := by
  have hlinked := reach_linked h
  have hfew := reach_few (reach_pipe h)
  rcases step_cases hs with ⟨b, t, rfl, hemit, ht, rfl⟩ | ⟨caller, m, ans, p, rfl, hpos, hp, rfl⟩ |
    ⟨caller, p, rfl, hp, rfl⟩ | ⟨e, rest, p, rfl, hi, hp, hT⟩ | ⟨b, p, rfl, hpush, himm, hp, rfl⟩
  · obtain ⟨hissued, hlt⟩ := turn_lowers (S := ⟨S.obj, S.outstanding, [], S.answers⟩)
      hsane ha.js hemit ht
    refine ⟨hissued, ?_⟩
    have hops := operations_launched ⟨S.obj, S.outstanding, [], S.answers⟩ b
    simp only [work] at hlt hops ⊢
    omega
  · refine ⟨rfl, ?_⟩
    have hlt := answer_lowers hlinked hfew hpos hp
    simp only [work]
    omega
  · obtain ⟨hobj, hout⟩ := pushed_obj S caller p
    have hlt := pipe_lowers hfew ha.pipe hp
    refine ⟨by rw [hobj], ?_⟩
    simp only [work, hobj, hout, pushed_pipe]
    omega
  · have hlt := pipe_lowers hfew ha.pipe hp
    rcases hT with ⟨-, -, rfl⟩ | ⟨-, rfl⟩
    · refine ⟨Obj.emit_issued _ _ _, ?_⟩
      have hturn : turnWork (S.obj.emit e.event (argv e)) = turnWork S.obj := by
        simp [turnWork, Obj.emit_running]
      simp only [work, emit_work, hturn]
      omega
    · refine ⟨rfl, ?_⟩
      simp only [work]
      omega
  · have hlt := pipe_lowers hfew ha.pipe hp
    refine ⟨rfl, ?_⟩
    simp only [work]
    omega

theorem step_concluding (hargv : ∀ e n, values (fun _ => none) e = some n → argv e = n.2)
    {issued : Method c → ℕ} (h : Concluding argv o issued S) (ha : Finishing S a)
    (hs : step argv o S a = some T) : Concluding argv o issued T ∧ work T < work S := by
  obtain ⟨hissued, hlt⟩ := step_lowers h.shared (h.wound hargv).supplied.sane (Or.inl ha) hs
  have hgrow := handlers_grow ha.throwing.shared hs
  exact ⟨⟨h.reached.tail ha.throwing hs, Nat.lt_of_lt_of_le h.built hgrow,
    hissued.trans h.issued⟩, hlt⟩

end Concluding

section Rest

variable {argv : Emitted → List JsValue} {o : ℕ} {T : Host c}

theorem rest_turn (hbuilt : o < T.pipe.handlers.length)
    (hrest : AtRest (step argv o) Finishing T) : T.obj.running = none := by
  by_contra hne
  obtain ⟨i, hi⟩ := Option.ne_none_iff_exists'.mp hne
  have hstuck := hrest (.js .register) trivial
  simp [step, hbuilt, Adapter.step, hi] at hstuck

/-- At rest no thread is inside `async_call`: whoever has the lock goes on, so
it is free, and then nobody waits for it. -/
theorem rest_callers (hlock : AsyncQueue.LockOwned T.pipe.queue)
    (hrest : AtRest (step argv o) Finishing T) (a : AsyncQueue.Actor) :
    T.pipe.queue.pcs a = .idle := by
  have hfree : T.pipe.queue.lock = none := by
    cases hk : T.pipe.queue.lock with
    | none => rfl
    | some holder =>
      cases holder with
      | loop =>
        have hstuck := hrest (.pipe (.queue .test)) trivial
        simp [step, Delivery.step, queueStep, AsyncQueue.step, hlock.loop.mp hk] at hstuck
      | caller b =>
        obtain ⟨e, bounded, hpc⟩ := (hlock.caller b).mp hk
        have hstuck := hrest (.pipe (.queue (.push b))) trivial
        simp [step, Delivery.step, queueStep, AsyncQueue.step, hpc] at hstuck
  cases hpc : T.pipe.queue.pcs a with
  | idle => rfl
  | checked e =>
    have hstuck := hrest (.pipe (.queue (.enter a))) trivial
    simp [step, Delivery.step, queueStep, AsyncQueue.step, hfree, hpc] at hstuck
  | locked e bounded =>
    have hheld := (hlock.caller a).mpr ⟨e, bounded, hpc⟩
    rw [hfree] at hheld
    cases hheld
  | pushed =>
    have hstuck := hrest (.pipe (.queue (.send a))) trivial
    simp [step, Delivery.step, queueStep, AsyncQueue.step, hpc] at hstuck

theorem rest_loop (hbuilt : o < T.pipe.handlers.length)
    (hrest : AtRest (step argv o) Finishing T) : AtRest Delivery.step LoopThread T.pipe := by
  intro b hb
  have hturn := rest_turn hbuilt hrest
  cases b with
  | queue q =>
    cases q with
    | wake => exact Option.map_eq_none_iff.mp (hrest (.pipe (.queue .wake)) trivial)
    | acquire => exact Option.map_eq_none_iff.mp (hrest (.pipe (.queue .acquire)) trivial)
    | test => exact Option.map_eq_none_iff.mp (hrest (.pipe (.queue .test)) trivial)
    | finish => exact Option.map_eq_none_iff.mp (hrest (.pipe (.queue .finish)) trivial)
    | leave => exact Option.map_eq_none_iff.mp (hrest (.pipe (.queue .leave)) trivial)
    | _ => exact hb.elim
  | checkBegin => exact Option.map_eq_none_iff.mp (hrest (.pipe .checkBegin) hb)
  | checkEnd => exact Option.map_eq_none_iff.mp (hrest (.pipe .checkEnd) hb)
  | immediate =>
    have hstuck := hrest (.pipe .immediate) trivial
    cases hi : T.pipe.immediates with
    | nil => simp [Delivery.step, hi]
    | cons e rest =>
      by_contra hne
      obtain ⟨p, hp⟩ := Option.ne_none_iff_exists'.mp hne
      by_cases ho : e.object = o
      · simp [step, hi, hp, ho, Adapter.step, hturn] at hstuck
      · simp [step, hi, hp, ho] at hstuck
  | construct kind => exact hb.elim
  | callback caller handler m cb => exact hb.elim

theorem rest_answered (htyped : Typed o T) (hbuilt : o < T.pipe.handlers.length)
    (hcallers : ∀ a, T.pipe.queue.pcs a = .idle) (hrest : AtRest (step argv o) Finishing T)
    (m : Method c) : T.outstanding m = 0 := by
  by_contra hne
  have hstuck := hrest (.answer (.producer 0) m .success) trivial
  obtain ⟨task, hpost⟩ : ∃ task, (callback m .success).post (fun _ => none) = some task := by
    cases m <;> exact ⟨_, rfl⟩
  have hhandler := List.getElem?_eq_getElem hbuilt
  have hkind : T.pipe.handlers[o].kind = kindOf (callback m .success) := by
    rw [htyped _ hhandler]
    cases m <;> rfl
  simp only [step, Nat.pos_of_ne_zero hne, ↓reduceIte, Option.map_eq_none_iff, Delivery.step,
    hhandler, hpost, hkind, queueStep, AsyncQueue.step, AsyncQueue.State.present,
    hcallers (.producer 0)] at hstuck
  split at hstuck <;> cases hstuck

theorem rest_js (hbuilt : o < T.pipe.handlers.length) (hrest : AtRest (step argv o) Finishing T)
    {b : Adapter.Action c} (hb : Winding (view argv o T) (.js b)) :
    NativeSystem.step (view argv o T) (.js b) = none := by
  have hstuck : Finishing T (.js b) → (∀ event args, b ≠ .emit event args) →
      Adapter.step T.obj b = none := by
    intro ha hne
    have hnone := hrest (.js b) ha
    cases b with
    | emit event args => exact absurd rfl (hne event args)
    | _ => simpa [step, hbuilt] using hnone
  cases b with
  | call m => exact hb.elim
  | timer i => simp [NativeSystem.step, view, hstuck trivial (by simp)]
  | resume i r =>
    have hfin : Finishing T (.js (.resume i r)) := by cases r <;> trivial
    simp [NativeSystem.step, view, hstuck hfin (by simp)]
  | register => simp [NativeSystem.step, view, hstuck trivial (by simp)]
  | emit event args => rfl

structure Spent (argv : Emitted → List JsValue) (o : ℕ) (T : Host c) : Prop where
  answered : ∀ m, T.outstanding m = 0
  begun : T.begun = []
  emitted : T.pipe.emitted = T.pipe.queue.pushed.map fun e => e.elem.event
  own : AtRest NativeSystem.step Winding (view argv o T)

theorem rest_spent (h : Reach (step argv o) Shared (init c) T)
    (hbuilt : o < T.pipe.handlers.length) (hrest : AtRest (step argv o) Finishing T) :
    Spent argv o T := by
  have hpipe := reach_pipe h
  have hpiped := reach_piped hpipe
  have hcallers := rest_callers (AsyncQueue.reach_lock hpiped.queue.weaken) hrest
  have hquiet : Quiet T.pipe.queue.pushed T.pipe := ⟨hpipe, hcallers, rfl⟩
  obtain ⟨hpending, hloop, himmediates⟩ := hquiet.resting (rest_loop hbuilt hrest)
  have hanswered := rest_answered (reach_typed h) hbuilt hcallers hrest
  have hbegun : T.begun = [] := by
    rw [List.eq_nil_iff_forall_not_mem]
    intro x hx
    exact (reach_linked h).idle (hcallers x.1) x hx rfl
  have hemitted : T.pipe.emitted = T.pipe.queue.pushed.map fun e => e.elem.event := by
    have hexec := AsyncQueue.rest_executed hpiped.queue hcallers hpending hloop
    rw [← hexec, ← hpiped.fired, himmediates, List.append_nil]
  have hupcoming : upcoming T.pipe = [] := by
    have hboth := emitted_upcoming hpiped
    rw [← hemitted] at hboth
    exact List.append_right_eq_self.mp hboth
  refine ⟨hanswered, hbegun, hemitted, ?_⟩
  intro b hb
  cases b with
  | js b => exact rest_js hbuilt hrest hb
  | answer m ans => simp [NativeSystem.step, view, hanswered, hbegun]
  | notify n => exact hb.elim
  | deliver => simp [NativeSystem.step, view, hupcoming, noticed]

/-- The calls made are settled, the keys are open, nothing is under way, and
every event pushed has been emitted. -/
structure Concluded (issued : Method c → ℕ) (T : Host c) : Prop where
  promises : ∀ m n, n < issued m → (T.obj.calls (m, n)).promise ≠ .pending
  unlocked : ∀ m, ¬ T.obj.Locked m
  answered : ∀ m, T.outstanding m = 0
  begun : T.begun = []
  emitted : T.pipe.emitted = T.pipe.queue.pushed.map fun e => e.elem.event

theorem rest_concluded (hargv : ∀ e n, values (fun _ => none) e = some n → argv e = n.2)
    {issued : Method c → ℕ} (h : Concluding argv o issued T)
    (hrest : AtRest (step argv o) Finishing T) : Concluded issued T := by
  have hspent := rest_spent h.shared h.built hrest
  have hsettled := (h.wound hargv).rest hspent.own
  exact ⟨hsettled.promises, hsettled.unlocked, hspent.answered, hspent.begun, hspent.emitted⟩

end Rest

/-- Liveness of a whole process. From any state that it can be in, with callers
in the queue, a drain under way, completions outstanding and turns pending, every
way in which its threads go on ends within `work` steps, and it ends with each
promise of the object settled, no key locked and every event emitted. -/
theorem process_settles (argv : Emitted → List JsValue)
    (hargv : ∀ e n, values (fun _ => none) e = some n → argv e = n.2) (o : ℕ) (S : Host c)
    (h : Reach (step argv o) Throwing (init c) S) (ho : o < S.pipe.handlers.length) :
    (∀ as T, run (step argv o) Finishing S as = some T → as.length ≤ work S) ∧
    (∀ T, Reach (step argv o) Finishing S T → AtRest (step argv o) Finishing T →
      Concluded S.obj.issued T) ∧
    ∃ as T, run (step argv o) Finishing S as = some T ∧ Concluded S.obj.issued T :=
  comes_to_rest (I := Concluding argv o S.obj.issued)
    (fun _ _ _ hS ha hs => step_concluding hargv hS ha hs)
    (fun _ hT hrest => rest_concluded hargv hT hrest) S ⟨h, ho, rfl⟩

theorem process_settles_login :
    ∃ as T, run (step ownArgs 0) Finishing
        (final (step ownArgs 0) Throwing (init .AgoraRtmSDK) loginAmongOthers) as = some T ∧
      Concluded (final (step ownArgs 0) Throwing (init .AgoraRtmSDK) loginAmongOthers).obj.issued
        T :=
  (process_settles ownArgs (fun e n h => by simp [ownArgs, h]) 0 _ (reach_final rfl)
    (by decide)).2.2

end AgoraRtm.Process
