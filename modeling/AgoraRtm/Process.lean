import AgoraRtm.Settlement
import AgoraRtm.Closing

/-!
# An object in its process

One adapter object, with its native side, among the other objects of a process:
all of them post to one queue from threads of the SDK, and the loop thread runs
their tasks and emits their events. Seen from the object, a push of one of its
events is the post of a notice and an emission on it the delivery of the oldest
one; everything else that the process does is not seen.
-/

set_option autoImplicit false

namespace AgoraRtm.Process
open Runs Adapter NativeEvents Delivery NativeSystem Reception Settlement

variable {c : JsClass}

structure Host (c : JsClass) where
  pipe : Pipe
  obj : Obj c
  /-- Accepted operations whose callback has not begun. -/
  outstanding : Method c → ℕ
  /-- The completions on their way into the queue, each with its thread. -/
  begun : List (AsyncQueue.Actor × Method c × Answer)
  /-- The completions that have been pushed. -/
  answers : Method c → List Answer

def init (c : JsClass) : Host c :=
  ⟨Delivery.init, Adapter.init c, fun _ => 0, [], fun _ => []⟩

inductive Action (c : JsClass) where
  | js (a : Adapter.Action c)
  | answer (caller : AsyncQueue.Actor) (m : Method c) (ans : Answer)
  | pipe (a : Delivery.Action)

def Host.posting (S : Host c) (caller : AsyncQueue.Actor) : Option (Method c × Answer) :=
  (S.begun.find? fun x => x.1 = caller).map Prod.snd

def Host.pushed (S : Host c) (caller : AsyncQueue.Actor) (p : Pipe) : Host c :=
  match S.posting caller with
  | none => { S with pipe := p }
  | some (m, ans) =>
    { S with
      pipe := p
      begun := S.begun.filter fun x => x.1 ≠ caller
      answers := Function.update S.answers m (S.answers m ++ [ans]) }

/-- What listeners are given of an event, `argv`, may depend on SDK memory; `o`
is the object's place. -/
def step (argv : Emitted → List JsValue) (o : ℕ) (S : Host c) : Action c → Option (Host c)
  | .js (.emit _ _) => none
  | .js a =>
    if o < S.pipe.handlers.length then
      (Adapter.step S.obj a).map fun t =>
        { S with obj := t, outstanding := launched ⟨S.obj, S.outstanding, [], S.answers⟩ a }
    else none
  | .answer caller m ans =>
    if 0 < S.outstanding m then
      (Delivery.step S.pipe (.callback caller o (fun _ => none) (callback m ans))).map fun p =>
        { S with
          pipe := p
          outstanding := Function.update S.outstanding m (S.outstanding m-1)
          begun := S.begun ++ [(caller, m, ans)] }
    else none
  | .pipe (.construct kind) =>
    if S.pipe.handlers.length = o ∧ kind ≠ kindOfClass c then none
    else (Delivery.step S.pipe (.construct kind)).map fun p => { S with pipe := p }
  | .pipe (.queue (.push caller)) =>
    (Delivery.step S.pipe (.queue (.push caller))).map (S.pushed caller)
  | .pipe .immediate =>
    match S.pipe.immediates with
    | [] => none
    | e :: _ =>
      (Delivery.step S.pipe .immediate).bind fun p =>
        if e.object = o then
          (Adapter.step S.obj (.emit e.event (argv e))).map fun t => { S with pipe := p, obj := t }
        else some { S with pipe := p }
  | .pipe a => (Delivery.step S.pipe a).map fun p => { S with pipe := p }

def Shared (S : Host c) : Action c → Prop
  | .pipe (.queue .close) => False
  | .pipe a => Used S.pipe a
  | _ => True

/-- Runs in which the object's native methods that fail throw. -/
def Throwing (S : Host c) : Action c → Prop
  | .js (.resume _ (.failed _)) => False
  | a => Shared S a

instance (S : Host c) (a : Action c) : Decidable (Shared S a) := by
  unfold Shared
  split <;> infer_instance

instance (S : Host c) (a : Action c) : Decidable (Throwing S a) := by
  unfold Throwing
  split <;> infer_instance

/-- The events that have been pushed and are still to be emitted, in order. -/
def upcoming (s : Pipe) : List Emitted :=
  s.immediates ++ (s.queue.loop.current ++ s.queue.q).map fun e => e.elem.event

section View

variable (argv : Emitted → List JsValue) (o : ℕ)

def noticed (events : List Emitted) : List Notice :=
  (events.filter fun e => e.object = o).map fun e => (e.event, argv e)

def view (S : Host c) : System c where
  obj := S.obj
  outstanding m := S.outstanding m+S.begun.countP fun x => x.2.1 = m
  posted := noticed argv o (upcoming S.pipe)
  answers := S.answers

end View

/-- What ties the completions on their way to the tasks that carry them. -/
structure Linked (o : ℕ) (S : Host c) : Prop where
  piped : Piped S.pipe
  opened : S.pipe.queue.closed = false
  once : (S.begun.map Prod.fst).Nodup
  carried : ∀ x ∈ S.begun, ∃ task, (callback x.2.1 x.2.2).post (fun _ => none) = some task ∧
    (S.pipe.queue.pcs x.1).carried = some ⟨o, task⟩

theorem init_linked (o : ℕ) : Linked o (init c) where
  piped := init_piped
  opened := rfl
  once := List.nodup_nil
  carried _ h := by cases h

theorem emitted_upcoming {s : Pipe} (h : Piped s) :
    s.emitted ++ upcoming s = s.queue.pushed.map fun e => e.elem.event := by
  have hexec := (AsyncQueue.reach_kept h.queue.weaken).executed
  have hkept := AsyncQueue.handed_then_queued h.queue
  rw [upcoming, ← List.append_assoc, h.fired, ← List.map_append, ← List.append_assoc, hexec, hkept]

theorem upcoming_same {s t : Pipe} (hs : Piped s) (ht : Piped t) (hemitted : t.emitted = s.emitted)
    (hpushed : t.queue.pushed = s.queue.pushed) : upcoming t = upcoming s := by
  have hboth := emitted_upcoming ht
  rw [hemitted, hpushed, ← emitted_upcoming hs] at hboth
  exact List.append_cancel_left hboth

theorem upcoming_push {s t : Pipe} (hs : Piped s) (ht : Piped t) (hemitted : t.emitted = s.emitted)
    {p : Posted} (hpushed : t.queue.pushed = s.queue.pushed ++ [⟨s.queue.pushed.length, p⟩]) :
    upcoming t = upcoming s ++ [p.event] := by
  have hboth := emitted_upcoming ht
  rw [hemitted, hpushed, List.map_append, ← emitted_upcoming hs, List.append_assoc] at hboth
  exact List.append_cancel_left hboth

theorem upcoming_emit {s t : Pipe} (hs : Piped s) (ht : Piped t) {e : Emitted}
    (hemitted : t.emitted = s.emitted ++ [e]) (hqueue : t.queue = s.queue) :
    upcoming s = e :: upcoming t := by
  have hboth := emitted_upcoming ht
  rw [hemitted, hqueue, ← emitted_upcoming hs, List.append_assoc] at hboth
  exact (List.append_cancel_left hboth).symm

theorem countP_without {α β : Type*} [DecidableEq α] {l : List (α × β)}
    (hl : (l.map Prod.fst).Nodup) {x : α × β} (hx : x ∈ l) (f : β → Bool) :
    l.countP (fun y => f y.2) =
      ((l.filter fun y => y.1 ≠ x.1).countP fun y => f y.2)+if f x.2 then 1 else 0 := by
  induction l with
  | nil => cases hx
  | cons y l ih =>
    rw [List.map_cons, List.nodup_cons] at hl
    rcases List.mem_cons.mp hx with rfl | hx
    · have hself : (l.filter fun y => decide (y.1 ≠ x.1)) = l := by
        rw [List.filter_eq_self]
        intro y hy
        exact decide_eq_true fun he => hl.1 (List.mem_map.mpr ⟨y, hy, he⟩)
      rw [List.filter_cons_of_neg (by simp), hself, List.countP_cons]
    · have hne : y.1 ≠ x.1 := fun he => hl.1 (List.mem_map.mpr ⟨x, hx, he.symm⟩)
      rw [List.filter_cons_of_pos (by simpa using hne), List.countP_cons, List.countP_cons,
        ih hl.2 hx]
      omega

theorem step_cases {argv : Emitted → List JsValue} {o : ℕ} {S T : Host c} {a : Action c}
    (hs : step argv o S a = some T) :
    (∃ b t, a = .js b ∧ (∀ event args, b ≠ .emit event args) ∧ Adapter.step S.obj b = some t ∧
      T = { S with
        obj := t
        outstanding := launched ⟨S.obj, S.outstanding, [], S.answers⟩ b }) ∨
    (∃ caller m ans p, a = .answer caller m ans ∧ 0 < S.outstanding m ∧
      Delivery.step S.pipe (.callback caller o (fun _ => none) (callback m ans)) = some p ∧
      T = { S with
        pipe := p
        outstanding := Function.update S.outstanding m (S.outstanding m-1)
        begun := S.begun ++ [(caller, m, ans)] }) ∨
    (∃ caller p, a = .pipe (.queue (.push caller)) ∧
      Delivery.step S.pipe (.queue (.push caller)) = some p ∧ T = S.pushed caller p) ∨
    (∃ e rest p, a = .pipe .immediate ∧ S.pipe.immediates = e :: rest ∧
      Delivery.step S.pipe .immediate = some p ∧
      (e.object = o ∧ S.obj.running = none ∧
        T = { S with pipe := p, obj := S.obj.emit e.event (argv e) } ∨
      e.object ≠ o ∧ T = { S with pipe := p })) ∨
    (∃ b p, a = .pipe b ∧ (∀ caller, b ≠ .queue (.push caller)) ∧ b ≠ .immediate ∧
      Delivery.step S.pipe b = some p ∧ T = { S with pipe := p }) := by
  cases a with
  | js b =>
    left
    have hemit : ∀ event args, b ≠ .emit event args := by
      rintro event args rfl
      cases hs
    have hmap : (if o < S.pipe.handlers.length then
        (Adapter.step S.obj b).map fun t =>
          { S with obj := t, outstanding := launched ⟨S.obj, S.outstanding, [], S.answers⟩ b }
        else none) = some T := by
      cases b <;> first | exact hs | exact absurd rfl (hemit _ _)
    split at hmap
    · obtain ⟨t, ht, rfl⟩ := Option.map_eq_some_iff.mp hmap
      exact ⟨b, t, rfl, hemit, ht, rfl⟩
    · cases hmap
  | answer caller m ans =>
    right; left
    simp only [step] at hs
    split at hs
    · rename_i hpos
      obtain ⟨p, hp, rfl⟩ := Option.map_eq_some_iff.mp hs
      exact ⟨caller, m, ans, p, rfl, hpos, hp, rfl⟩
    · cases hs
  | pipe b =>
    right; right
    by_cases hpush : ∃ caller, b = .queue (.push caller)
    · left
      obtain ⟨caller, rfl⟩ := hpush
      obtain ⟨p, hp, rfl⟩ := Option.map_eq_some_iff.mp hs
      exact ⟨caller, p, rfl, hp, rfl⟩
    · by_cases himmediate : b = .immediate
      · right; left
        subst himmediate
        simp only [step] at hs
        split at hs
        · cases hs
        · rename_i e rest hi
          obtain ⟨p, hp, hs⟩ := Option.bind_eq_some_iff.mp hs
          refine ⟨e, rest, p, rfl, hi, hp, ?_⟩
          split at hs
          · rename_i ho
            obtain ⟨t, ht, rfl⟩ := Option.map_eq_some_iff.mp hs
            obtain ⟨hrun, rfl⟩ := step_emit ht
            exact Or.inl ⟨ho, hrun, rfl⟩
          · rename_i ho
            exact Or.inr ⟨ho, (Option.some.inj hs).symm⟩
      · right; right
        have hmap : (Delivery.step S.pipe b).map (fun p => { S with pipe := p }) = some T := by
          cases b with
          | immediate => exact absurd rfl himmediate
          | construct kind =>
            simp only [step] at hs
            split at hs
            · cases hs
            · exact hs
          | queue q =>
            cases q with
            | push caller => exact absurd ⟨caller, rfl⟩ hpush
            | _ => exact hs
          | _ => exact hs
        obtain ⟨p, hp, rfl⟩ := Option.map_eq_some_iff.mp hmap
        exact ⟨b, p, rfl, fun caller he => hpush ⟨caller, he⟩, himmediate, hp, rfl⟩

section Links

variable {argv : Emitted → List JsValue} {o : ℕ} {S T : Host c}

theorem posting_none {caller : AsyncQueue.Actor} :
    S.posting caller = none ↔ ∀ x ∈ S.begun, x.1 ≠ caller := by
  simp [Host.posting]

theorem posting_some {caller : AsyncQueue.Actor} {m : Method c} {ans : Answer}
    (h : S.posting caller = some (m, ans)) : (caller, m, ans) ∈ S.begun := by
  obtain ⟨⟨a, b⟩, hx, rfl⟩ := Option.map_eq_some_iff.mp h
  have hmem := List.mem_of_find?_eq_some hx
  have hkey : a = caller := by simpa using List.find?_some hx
  rwa [← hkey]

theorem Linked.idle (h : Linked o S) {caller : AsyncQueue.Actor}
    (hidle : S.pipe.queue.pcs caller = .idle) : ∀ x ∈ S.begun, x.1 ≠ caller := by
  rintro x hx rfl
  obtain ⟨task, -, hcarried⟩ := h.carried x hx
  rw [hidle] at hcarried
  cases hcarried

theorem Linked.call (h : Linked o S) {caller : AsyncQueue.Actor} {p : Posted} {t : Pipe}
    (hq : queueStep S.pipe (.call caller p) = some t) :
    S.pipe.queue.pcs caller = .idle ∧ t.queue = S.pipe.queue.setPc caller (.checked p) := by
  obtain ⟨hidle, hopen⟩ := AsyncQueue.call_cases (queueStep_inv hq).1
  rcases hopen with ⟨hclosed, -⟩ | ⟨-, hq⟩
  · rw [h.opened] at hclosed
    cases hclosed
  · exact ⟨hidle, hq⟩

theorem Linked.keep (h : Linked o S) {t : Pipe} {begun : List (AsyncQueue.Actor × Method c × Answer)}
    {obj : Obj c} {outstanding : Method c → ℕ} {answers : Method c → List Answer}
    (hpiped : Piped t) (hopened : t.queue.closed = false) (hbegun : begun.Sublist S.begun)
    (hcarried : ∀ x ∈ begun, (t.queue.pcs x.1).carried = (S.pipe.queue.pcs x.1).carried) :
    Linked o ⟨t, obj, outstanding, begun, answers⟩ where
  piped := hpiped
  opened := hopened
  once := h.once.sublist (hbegun.map Prod.fst)
  carried x hx := by
    obtain ⟨task, hpost, hold⟩ := h.carried x (hbegun.subset hx)
    exact ⟨task, hpost, (hcarried x hx).trans hold⟩

theorem Shared.used {b : Delivery.Action} (h : Shared S (.pipe b)) : Used S.pipe b := by
  cases b with
  | queue q => cases q <;> first | exact h | trivial
  | _ => trivial

theorem still_open (h : Linked o S) {b : AsyncQueue.Action Posted} {t : Pipe}
    (hb : b ≠ .close) (hq : queueStep S.pipe b = some t) : t.queue.closed = false := by
  rcases AsyncQueue.step_closed (queueStep_inv hq).1 with hsame | ⟨hclose, -⟩
  · rw [hsame]
    exact h.opened
  · exact absurd hclose hb

theorem Linked.aside (h : Linked o S) {b : Delivery.Action} {p : Pipe}
    (hused : Used S.pipe b) (hpush : ∀ caller, b ≠ .queue (.push caller)) (himm : b ≠ .immediate)
    (hclose : b ≠ .queue .close) (hp : Delivery.step S.pipe b = some p) :
    upcoming p = upcoming S.pipe ∧ Piped p ∧ p.queue.closed = false ∧
    ∀ x ∈ S.begun, (p.queue.pcs x.1).carried = (S.pipe.queue.pcs x.1).carried := by
  have hpiped := step_piped S.pipe b p h.piped hused hp
  rcases pipe_cases hp with ⟨kind, -, rfl⟩ | ⟨caller, i, m, cb, task, rfl, -, hq⟩ |
    ⟨q, rfl, hcall, hq⟩ | ⟨checking, -, rfl⟩ | ⟨e, rest, rfl, -⟩
  · exact ⟨rfl, hpiped, h.opened, fun _ _ => rfl⟩
  · obtain ⟨hidle, hqueue⟩ := h.call hq
    refine ⟨?_, hpiped, still_open h (by simp) hq, ?_⟩
    · exact upcoming_same h.piped hpiped (queueStep_inv hq).2 (by rw [hqueue]; rfl)
    · intro x hx
      rw [hqueue, AsyncQueue.setPc_other _ _ _ _ (h.idle hidle x hx)]
  · have hopen := still_open h (fun he => hclose (by rw [he])) hq
    rcases AsyncQueue.step_carried (queueStep_inv hq).1 with ⟨a, e, rfl⟩ | ⟨a, e, rfl, -⟩ |
      ⟨hpushed, hsame⟩
    · exact absurd rfl (hcall a e)
    · exact absurd rfl (hpush a)
    · exact ⟨upcoming_same h.piped hpiped (queueStep_inv hq).2 hpushed, hpiped, hopen,
        fun x _ => hsame x.1⟩
  · exact ⟨rfl, hpiped, h.opened, fun _ _ => rfl⟩
  · exact absurd rfl himm

theorem Linked.push (h : Linked o S) {caller : AsyncQueue.Actor} {p : Pipe}
    (hp : Delivery.step S.pipe (.queue (.push caller)) = some p) :
    ∃ q, (S.pipe.queue.pcs caller).carried = some q ∧
      upcoming p = upcoming S.pipe ++ [q.event] ∧ Piped p ∧ p.queue.closed = false ∧
      ∀ a, a ≠ caller → (p.queue.pcs a).carried = (S.pipe.queue.pcs a).carried := by
  have hpiped := step_piped S.pipe _ p h.piped (by trivial) hp
  have hq : queueStep S.pipe (.push caller) = some p := hp
  obtain ⟨e, hcarried, hpushed, -, hother⟩ := AsyncQueue.push_carried (queueStep_inv hq).1
  exact ⟨e, hcarried, upcoming_push h.piped hpiped (queueStep_inv hq).2 hpushed, hpiped,
    still_open h (by simp) hq, hother⟩

theorem step_linked (S : Host c) (a : Action c) (T : Host c) (h : Linked o S) (ha : Shared S a)
    (hs : step argv o S a = some T) : Linked o T := by
  rcases step_cases hs with ⟨b, t, rfl, -, -, rfl⟩ | ⟨caller, m, ans, p, rfl, -, hp, rfl⟩ |
    ⟨caller, p, rfl, hp, rfl⟩ | ⟨e, rest, p, rfl, -, hp, hT⟩ |
    ⟨b, p, rfl, hpush, himm, hp, rfl⟩
  · exact ⟨h.piped, h.opened, h.once, h.carried⟩
  · obtain ⟨-, hpiped, hopened, hcarried⟩ :=
      h.aside (by trivial) (by simp) (by simp) (by simp) hp
    rcases pipe_cases hp with ⟨_, he, -⟩ | ⟨caller', i, m', cb, task, he, hpost, hq⟩ | ⟨_, he, -⟩ |
      ⟨_, he, -⟩ | ⟨_, _, he, -⟩
    · cases he
    · obtain ⟨rfl, rfl, rfl, rfl⟩ : caller' = caller ∧ i = o ∧ m' = (fun _ => none) ∧
        cb = callback m ans := by simpa [eq_comm] using he
      obtain ⟨hidle, hqueue⟩ := h.call hq
      refine ⟨hpiped, hopened, ?_, ?_⟩
      · rw [List.map_append, List.nodup_append']
        refine ⟨h.once, by simp, ?_⟩
        simpa using fun a ans' hx => h.idle hidle (caller', a, ans') hx rfl
      · intro x hx
        rcases List.mem_append.mp hx with hold | hnew
        · obtain ⟨task', hpost', hc⟩ := h.carried x hold
          exact ⟨task', hpost', (hcarried x hold).trans hc⟩
        · obtain rfl := List.mem_singleton.mp hnew
          exact ⟨task, hpost, by rw [hqueue]; simp [AsyncQueue.Pc.carried]⟩
    · cases he
    · rcases he with he | he <;> cases he
    · cases he
  · obtain ⟨q, -, -, hpiped, hopened, hother⟩ := h.push hp
    unfold Host.pushed
    split
    · rename_i hnone
      exact h.keep hpiped hopened (List.Sublist.refl _) fun x hx =>
        hother x.1 (posting_none.mp hnone x hx)
    · rename_i m ans hsome
      apply h.keep hpiped hopened List.filter_sublist
      intro x hx
      exact hother x.1 (by simpa using (List.mem_filter.mp hx).2)
  · have hpiped := step_piped S.pipe _ p h.piped (by trivial) hp
    rcases pipe_cases hp with ⟨_, he, -⟩ | ⟨_, _, _, _, _, he, -⟩ | ⟨_, he, -⟩ | ⟨_, he, -⟩ |
      ⟨e', rest', -, -, rfl⟩
    · cases he
    · cases he
    · cases he
    · rcases he with he | he <;> cases he
    · rcases hT with ⟨-, -, rfl⟩ | ⟨-, rfl⟩
      · exact h.keep hpiped h.opened (List.Sublist.refl _) fun _ _ => rfl
      · exact h.keep hpiped h.opened (List.Sublist.refl _) fun _ _ => rfl
  · have hclose : b ≠ .queue .close := by
      rintro rfl
      exact ha
    obtain ⟨-, hpiped, hopened, hcarried⟩ := h.aside ha.used hpush himm hclose hp
    exact h.keep hpiped hopened (List.Sublist.refl _) hcarried

end Links

section Simulation

variable {argv : Emitted → List JsValue} {o : ℕ} {S T : Host c}

theorem launched_view (b : Adapter.Action c) (m : Method c) :
    launched ⟨S.obj, S.outstanding, [], S.answers⟩ b m+(S.begun.countP fun x => x.2.1 = m) =
      launched (view argv o S) b m := by
  cases b with
  | resume i r =>
    by_cases hacc : (S.obj.calls i).phase = .passed ∧ accepts r = true
    · by_cases hm : m = i.1
      · subst hm
        simp only [launched, view, hacc, and_self, ↓reduceIte, Function.update_self]
        omega
      · simp [launched, view, hacc, hm]
    · simp [launched, view, hacc]
  | _ => rfl

theorem values_event (p : Posted) (later : Memory) :
    values later p.event = (p.task.argv later).map fun argv => (p.task.event, argv) := by
  have hargs : ((p.task.params.map some).mapM fun q : Option Param => q.bind (Param.create later)) =
      p.task.argv later := by
    simp [Task.argv, List.mapM_map, Function.comp_def]
  rw [values, Posted.event, hargs]

theorem completion_noticed (hargv : ∀ e n, values (fun _ => none) e = some n → argv e = n.2)
    {m : Method c} {ans : Answer} {task : NativeEvents.Task}
    (hpost : (callback m ans).post (fun _ => none) = some task) :
    completion m ans = some (task.event, argv (Posted.event ⟨o, task⟩)) := by
  obtain ⟨n, hn⟩ : ∃ n, completion m ans = some n := by
    cases m <;> cases ans <;> exact ⟨_, rfl⟩
  have hsame : completion m ans = values (fun _ => none) (Posted.event ⟨o, task⟩) := by
    rw [values_event, completion, received_notice, hpost]
    exact received_eq _ _ _ _ hpost
  have hevent : n.1 = task.event := by
    rw [hsame, values_event] at hn
    obtain ⟨args, -, rfl⟩ := Option.map_eq_some_iff.mp hn
    rfl
  have hargs := hargv _ n (hsame ▸ hn)
  rw [hn, hargs, ← hevent]

theorem noticed_append (events : List Emitted) (e : Emitted) :
    noticed argv o (events ++ [e]) =
      noticed argv o events ++ if e.object = o then [(e.event, argv e)] else [] := by
  unfold noticed
  rw [List.filter_append, List.map_append]
  by_cases ho : e.object = o
  · simp [ho]
  · simp [ho]

theorem noticed_cons (e : Emitted) (events : List Emitted) :
    noticed argv o (e :: events) =
      if e.object = o then (e.event, argv e) :: noticed argv o events else noticed argv o events := by
  unfold noticed
  by_cases ho : e.object = o
  · simp [ho]
  · simp [ho]

/-- The step of the object's own system that a step of the process is. -/
inductive Seen (o : ℕ) (S : Host c) : Action c → NativeSystem.Action c → Prop where
  | js (d : Adapter.Action c) : Seen o S (.js d) (.js d)
  | deliver (e : Emitted) (rest : List Emitted) (hi : S.pipe.immediates = e :: rest)
    (ho : e.object = o) : Seen o S (.pipe .immediate) .deliver
  | answer (caller : AsyncQueue.Actor) (m : Method c) (ans : Answer) :
    Seen o S (.pipe (.queue (.push caller))) (.answer m ans)
  | notify (caller : AsyncQueue.Actor) (q : Posted) (n : Notice)
    (hposting : S.posting caller = none) (hcarried : (S.pipe.queue.pcs caller).carried = some q)
    (ho : q.handler = o) (hn : n.1 = q.task.event) :
    Seen o S (.pipe (.queue (.push caller))) (.notify n)

def Unseen (o : ℕ) (S : Host c) (a : Action c) : Prop :=
  (∀ b, a ≠ .js b) ∧
  (a = .pipe .immediate → ∀ e rest, S.pipe.immediates = e :: rest → e.object ≠ o)

theorem push_view (hargv : ∀ e n, values (fun _ => none) e = some n → argv e = n.2)
    (h : Linked o S) {caller : AsyncQueue.Actor} {p : Pipe}
    (hp : Delivery.step S.pipe (.queue (.push caller)) = some p) :
    view argv o (S.pushed caller p) = view argv o S ∨
    ∃ b, NativeSystem.step (view argv o S) b = some (view argv o (S.pushed caller p)) ∧
      Seen o S (.pipe (.queue (.push caller))) b := by
  obtain ⟨q, hcarried, hupcoming, -⟩ := h.push hp
  cases hposting : S.posting caller with
  | none =>
    have hT : S.pushed caller p = { S with pipe := p } := by simp [Host.pushed, hposting]
    rw [hT]
    by_cases ho : q.event.object = o
    · right
      refine ⟨.notify (q.event.event, argv q.event), ?_, ?_⟩
      · simp [NativeSystem.step, view, hupcoming, noticed_append, ho]
      · exact Seen.notify caller q _ hposting hcarried ho rfl
    · left
      simp [view, hupcoming, noticed_append, ho]
  | some x =>
    right
    obtain ⟨m, ans⟩ := x
    have hmem := posting_some hposting
    obtain ⟨task, hpost, hold⟩ := h.carried _ hmem
    obtain rfl : q = ⟨o, task⟩ := by
      rw [hcarried] at hold
      exact Option.some.inj hold
    refine ⟨.answer m ans, ?_, Seen.answer caller m ans⟩
    have hcount := fun m' => countP_without h.once hmem fun y => decide (y.1 = m')
    have hpos : 0 < (view argv o S).outstanding m := by
      have hm := hcount m
      simp only [decide_true, ↓reduceIte] at hm
      simp only [view]
      omega
    have hT : S.pushed caller p = { S with
        pipe := p
        begun := S.begun.filter fun x => x.1 ≠ caller
        answers := Function.update S.answers m (S.answers m ++ [ans]) } := by
      simp [Host.pushed, hposting]
    have hout : (fun m' => S.outstanding m'+(S.begun.filter fun x => x.1 ≠ caller).countP
        fun x => x.2.1 = m') =
        Function.update (view argv o S).outstanding m ((view argv o S).outstanding m-1) := by
      ext m'
      have hm := hcount m'
      by_cases he : m' = m
      · subst he
        simp only [decide_true, ↓reduceIte, Function.update_self, view] at hm ⊢
        omega
      · have hne : m ≠ m' := Ne.symm he
        simp only [hne, decide_false, Bool.false_eq_true, ↓reduceIte, Nat.add_zero] at hm
        rw [Function.update_of_ne he]
        show _ = S.outstanding m'+S.begun.countP fun x => x.2.1 = m'
        rw [hm]
    have hposted : noticed argv o (upcoming p) = noticed argv o (upcoming S.pipe) ++
        [(task.event, argv (Posted.event ⟨o, task⟩))] := by
      rw [hupcoming, noticed_append, if_pos (by rfl)]
      rfl
    rw [NativeSystem.step, if_pos hpos, completion_noticed (o := o) hargv hpost, hT]
    simp only [Option.map_some, answered, view, hposted, hout]

/-- A step of the process is a step of the object's own system, or is not seen. -/
theorem step_view (hargv : ∀ e n, values (fun _ => none) e = some n → argv e = n.2)
    {a : Action c} (h : Linked o S) (ha : Shared S a) (hs : step argv o S a = some T) :
    (view argv o T = view argv o S ∧ Unseen o S a) ∨
    ∃ b, NativeSystem.step (view argv o S) b = some (view argv o T) ∧ Seen o S a b := by
  rcases step_cases hs with ⟨b, t, rfl, hemit, ht, rfl⟩ | ⟨caller, m, ans, p, rfl, hpos, hp, rfl⟩ |
    ⟨caller, p, rfl, hp, rfl⟩ | ⟨e, rest, p, rfl, hi, hp, hT⟩ |
    ⟨b, p, rfl, hpush, himm, hp, rfl⟩
  · right
    refine ⟨.js b, ?_, Seen.js b⟩
    have hmap : NativeSystem.step (view argv o S) (.js b) = (Adapter.step S.obj b).map fun t =>
        { view argv o S with obj := t, outstanding := launched (view argv o S) b } := by
      cases b <;> first | rfl | exact absurd rfl (hemit _ _)
    rw [hmap, ht, Option.map_some, ← funext (launched_view b)]
    rfl
  · left
    refine ⟨?_, by simp, by simp⟩
    obtain ⟨hupcoming, -⟩ := h.aside (by trivial) (by simp) (by simp) (by simp) hp
    have hout : (fun m' => Function.update S.outstanding m (S.outstanding m-1) m'+
        (S.begun ++ [(caller, m, ans)]).countP fun x => x.2.1 = m') =
        fun m' => S.outstanding m'+S.begun.countP fun x => x.2.1 = m' := by
      ext m'
      rw [List.countP_append, List.countP_singleton]
      by_cases he : m' = m
      · subst he
        simp only [Function.update_self, decide_true, ↓reduceIte]
        omega
      · simp [he, Ne.symm he]
    simp only [view, hupcoming, hout]
  · rcases push_view hargv h hp with hsame | hseen
    · exact Or.inl ⟨hsame, by simp, by simp⟩
    · exact Or.inr hseen
  · have hpiped := step_piped S.pipe _ p h.piped (by trivial) hp
    have hupcoming : upcoming S.pipe = e :: upcoming p := by
      rcases pipe_cases hp with ⟨_, he, -⟩ | ⟨_, _, _, _, _, he, -⟩ | ⟨_, he, -⟩ | ⟨_, he, -⟩ |
        ⟨e', rest', -, hi', rfl⟩
      · cases he
      · cases he
      · cases he
      · rcases he with he | he <;> cases he
      · obtain ⟨rfl, rfl⟩ : e' = e ∧ rest' = rest := by simpa [hi] using hi'.symm
        exact upcoming_emit h.piped hpiped rfl rfl
    rcases hT with ⟨ho, hrun, rfl⟩ | ⟨ho, rfl⟩
    · right
      refine ⟨.deliver, ?_, Seen.deliver e rest hi ho⟩
      simp [NativeSystem.step, view, hupcoming, noticed_cons, ho, Adapter.step, hrun]
    · left
      refine ⟨by simp [view, hupcoming, noticed_cons, ho], by simp, ?_⟩
      rintro - e' rest' hi'
      obtain ⟨rfl, -⟩ : e = e' ∧ rest = rest' := by simpa [hi] using hi'
      exact ho
  · left
    refine ⟨?_, by simp, fun he => absurd (by simpa using he) himm⟩
    have hclose : b ≠ .queue .close := by
      rintro rfl
      exact ha
    obtain ⟨hupcoming, -⟩ := h.aside ha.used hpush himm hclose hp
    simp only [view, hupcoming]

end Simulation

theorem Throwing.shared {S : Host c} {a : Action c} (h : Throwing S a) : Shared S a := by
  unfold Throwing at h
  split at h
  · exact h.elim
  · exact h

theorem Seen.throws {o : ℕ} {S : Host c} {a : Action c} {b : NativeSystem.Action c}
    (h : Seen o S a b) (ha : Throwing S a) (U : System c) : Throws U b := by
  cases h with
  | js d =>
    cases d with
    | resume i r => cases r <;> exact ha
    | _ => trivial
  | _ => trivial

theorem reach_linked {argv : Emitted → List JsValue} {o : ℕ} {S : Host c}
    (h : Reach (step argv o) Shared (init c) S) : Linked o S :=
  h.invariant (init_linked o) step_linked

theorem reach_view {argv : Emitted → List JsValue} {o : ℕ} {S : Host c}
    (hargv : ∀ e n, values (fun _ => none) e = some n → argv e = n.2)
    (h : Reach (step argv o) Throwing (init c) S) :
    Reach NativeSystem.step Throws (NativeSystem.init c) (view argv o S) := by
  apply h.refine (I := Linked o) (view argv o) (init_linked o)
  · intro S a T hS ha hs
    exact step_linked S a T hS ha.shared hs
  · intro S a T hS ha hs
    rcases step_view hargv hS ha.shared hs with ⟨hsame, -⟩ | ⟨b, hb, hseen⟩
    · rw [hsame]
      exact Reach.refl _
    · exact Reach.single (hseen.throws ha _) hb

/-- In a process with any number of objects, one queue and any interleaving of
its threads, each object goes through a run of its own system. So where its
failures throw, a locked key has its completion on the way: outstanding, in a
caller of `async_call`, or among the events to come. -/
theorem process_refines (argv : Emitted → List JsValue)
    (hargv : ∀ e n, values (fun _ => none) e = some n → argv e = n.2) (o : ℕ) (S : Host c) :
    (Reach (step argv o) Shared (init c) S →
      Reach NativeSystem.step always (NativeSystem.init c) (view argv o S)) ∧
    (Reach (step argv o) Throwing (init c) S →
      Reach NativeSystem.step Throws (NativeSystem.init c) (view argv o S) ∧
      ∀ m, S.obj.Locked m → 0 < S.outstanding m ∨ (∃ x ∈ S.begun, x.2.1 = m) ∨
        ∃ e ∈ upcoming S.pipe, e.object = o ∧ m.Completes e.event) := by
  refine ⟨?_, ?_⟩
  · intro h
    apply h.refine (I := Linked o) (view argv o) (init_linked o) step_linked
    intro S a T hS ha hs
    rcases step_view hargv hS ha hs with ⟨hsame, -⟩ | ⟨b, hb, -⟩
    · rw [hsame]
      exact Reach.refl _
    · exact Reach.single trivial hb
  · intro h
    refine ⟨reach_view hargv h, ?_⟩
    intro m hm
    have hsupplied := reach_supplied (reach_view hargv h)
    obtain ⟨n, hn⟩ := hsupplied.sane.locked m hm
    rcases hsupplied.due (m, n) hn with hout | ⟨x, hx, hcompletes⟩
    · by_cases hzero : S.outstanding m = 0
      · right; left
        simp only [view, hzero, Nat.zero_add, List.countP_pos_iff, decide_eq_true_eq] at hout
        exact hout
      · exact Or.inl (Nat.pos_of_ne_zero hzero)
    · right; right
      simp only [view, noticed, List.mem_map, List.mem_filter, decide_eq_true_eq] at hx
      obtain ⟨e, ⟨he, ho⟩, rfl⟩ := hx
      exact ⟨e, he, ho, hcompletes⟩

def ownArgs (e : Emitted) : List JsValue := ((values (fun _ => none) e).map Prod.snd).getD []

-- A second object posts between the login's completion and its emission.
def loginAmongOthers : List (Action .AgoraRtmSDK) :=
  [.pipe (.construct .controller), .pipe (.construct .channel), .js (.call .login),
    .js (.timer (.login, 0)), .js (.resume (.login, 0) (.accepted 0)),
    .answer (.producer 0) .login .success, .pipe (.queue (.enter (.producer 0))),
    .pipe (.callback (.producer 1) 1 (fun _ => none) (.channel .onJoinSuccess)),
    .pipe (.queue (.push (.producer 0))), .js .register, .pipe (.queue (.send (.producer 0))),
    .pipe (.queue (.enter (.producer 1))), .pipe (.queue (.push (.producer 1)))]

theorem process_refines_login :
    Reach NativeSystem.step Throws (NativeSystem.init .AgoraRtmSDK)
      (view ownArgs 0 (final (step ownArgs 0) Throwing (init _) loginAmongOthers)) ∧
    (view ownArgs 0 (final (step ownArgs 0) Throwing (init _) loginAmongOthers)).posted =
      [("LoginSuccess", [])] :=
  ⟨((process_refines ownArgs (fun e n h => by simp [ownArgs, h]) 0
      (final (step ownArgs 0) Throwing (init .AgoraRtmSDK) loginAmongOthers)).2
      (reach_final rfl)).1, rfl⟩

end AgoraRtm.Process
