import AgoraRtm.Settling
import AgoraRtm.Sequential

/-!
# A client that awaits, in a whole process

The client of one object awaits each promise before it calls again. The threads
of the SDK, the queue and the other objects go on as they like. What the object
is posted by others then never looks like an answer, so its promises are settled
by the answers, one after another.
-/

set_option autoImplicit false

namespace AgoraRtm.Process
open Runs Adapter NativeEvents Delivery NativeSystem Reception Settlement

variable {c : JsClass}

/-- The client awaits, the native side accepts each call of `m`, and no callback
but an answer completes one. -/
def Awaited (o : ℕ) (m : Method c) (S : Host c) : Action c → Prop
  | .js (.call m') => m' = m → ∀ n < S.obj.issued m, (S.obj.calls (m, n)).promise ≠ .pending
  | .js (.resume i r) => i.1 = m → accepts r = true
  | .pipe (.callback _ h _ cb) => h = o → ¬ m.Completes (eventOf cb)
  | a => Shared S a

instance (o : ℕ) (m : Method c) (S : Host c) : (a : Action c) → Decidable (Awaited o m S a)
  | .js (.call m') => inferInstanceAs
    (Decidable (m' = m → ∀ n < S.obj.issued m, (S.obj.calls (m, n)).promise ≠ .pending))
  | .js (.resume i r) => inferInstanceAs (Decidable (i.1 = m → accepts r = true))
  | .js (.timer i) => inferInstanceAs (Decidable (Shared S (.js (.timer i))))
  | .js .register => inferInstanceAs (Decidable (Shared S (.js .register)))
  | .js (.emit event args) => inferInstanceAs (Decidable (Shared S (.js (.emit event args))))
  | .answer caller m' ans => inferInstanceAs (Decidable (Shared S (.answer caller m' ans)))
  | .pipe (.callback _ h _ cb) => inferInstanceAs (Decidable (h = o → ¬ m.Completes (eventOf cb)))
  | .pipe (.construct kind) => inferInstanceAs (Decidable (Shared S (.pipe (.construct kind))))
  | .pipe (.queue b) => inferInstanceAs (Decidable (Shared S (.pipe (.queue b))))
  | .pipe .checkBegin => inferInstanceAs (Decidable (Shared S (.pipe .checkBegin)))
  | .pipe .immediate => inferInstanceAs (Decidable (Shared S (.pipe .immediate)))
  | .pipe .checkEnd => inferInstanceAs (Decidable (Shared S (.pipe .checkEnd)))

theorem Awaited.shared {o : ℕ} {m : Method c} {S : Host c} {a : Action c} (h : Awaited o m S a) :
    Shared S a := by
  cases a with
  | js b => trivial
  | answer caller m' ans => trivial
  | pipe b =>
    cases b with
    | callback caller i mem cb => trivial
    | _ => exact h

/-- Who brings an event of the object without an answer does not complete `m`. -/
def Unprompted (o : ℕ) (m : Method c) (S : Host c) : Prop :=
  ∀ a p, (S.pipe.queue.pcs a).carried = some p → p.handler = o → (∀ x ∈ S.begun, x.1 ≠ a) →
    ¬ m.Completes p.task.event

theorem pipe_carried {s t : Pipe} {b : Delivery.Action} (hpush : ∀ caller, b ≠ .queue (.push caller))
    (hs : Delivery.step s b = some t) {a : AsyncQueue.Actor} {p : Posted}
    (hp : (t.queue.pcs a).carried = some p) :
    (s.queue.pcs a).carried = some p ∨
    ∃ h mem cb, b = .callback a h mem cb ∧ cb.post mem = some p.task ∧ p.handler = h := by
  rcases pipe_cases hs with ⟨kind, -, rfl⟩ | ⟨caller, h, mem, cb, task, rfl, hpost, hq⟩ |
    ⟨q, rfl, hcall, hq⟩ | ⟨checking, -, rfl⟩ | ⟨e, rest, -, -, rfl⟩
  · exact Or.inl hp
  · rcases (AsyncQueue.call_cases (queueStep_inv hq).1).2 with ⟨-, hsame⟩ | ⟨-, hset⟩
    · rw [hsame] at hp
      exact Or.inl hp
    · by_cases ha : a = caller
      · subst ha
        obtain rfl : ⟨h, task⟩ = p := by simpa [hset, AsyncQueue.Pc.carried] using hp
        exact Or.inr ⟨h, mem, cb, rfl, hpost, rfl⟩
      · rw [hset, AsyncQueue.setPc_other _ _ _ _ ha] at hp
        exact Or.inl hp
  · rcases AsyncQueue.step_carried (queueStep_inv hq).1 with ⟨caller, e, rfl⟩ |
      ⟨caller, e, rfl, -⟩ | ⟨-, hsame⟩
    · exact absurd rfl (hcall caller e)
    · exact absurd rfl (hpush caller)
    · rw [hsame] at hp
      exact Or.inl hp
  · exact Or.inl hp
  · exact Or.inl hp

theorem pushed_begun {S : Host c} {caller : AsyncQueue.Actor} {p : Pipe}
    {x : AsyncQueue.Actor × Method c × Answer} (hx : x ∈ S.begun) (hne : x.1 ≠ caller) :
    x ∈ (S.pushed caller p).begun := by
  unfold Host.pushed
  split
  · exact hx
  · exact List.mem_filter.mpr ⟨hx, by simpa using hne⟩

section Steps

variable {argv : Emitted → List JsValue} {o : ℕ} {m : Method c}

theorem step_unprompted (S : Host c) (a : Action c) (T : Host c) (h : Unprompted o m S)
    (ha : Awaited o m S a) (hs : step argv o S a = some T) : Unprompted o m T := by
  rcases step_cases hs with ⟨b, t, rfl, -, -, rfl⟩ | ⟨caller, m', ans, p, rfl, -, hp, rfl⟩ |
    ⟨caller, p, rfl, hp, rfl⟩ | ⟨e, rest, p, rfl, -, hp, hT⟩ | ⟨b, p, rfl, hpush, himm, hp, rfl⟩
  · exact h
  · intro actor q hq ho hfree
    have hfree' : ∀ x ∈ S.begun, x.1 ≠ actor := fun x hx => hfree x (by simp [hx])
    rcases pipe_carried (by simp) hp hq with hold | ⟨_, _, _, he, -, -⟩
    · exact h actor q hold ho hfree'
    · obtain ⟨rfl, -⟩ : caller = actor ∧ _ := by simpa using he
      exact absurd rfl (hfree (caller, m', ans) (by simp))
  · intro actor q hq ho hfree
    rw [pushed_pipe] at hq
    obtain ⟨e, -, -, hnone, hother⟩ := AsyncQueue.push_carried (queueStep_inv (s := S.pipe) hp).1
    have hactor : actor ≠ caller := by
      rintro rfl
      rw [hnone] at hq
      cases hq
    rw [hother actor hactor] at hq
    apply h actor q hq ho
    rintro x hx rfl
    exact hfree x (pushed_begun hx hactor) rfl
  · have hobj : T.pipe = p ∧ T.begun = S.begun := by
      rcases hT with ⟨-, -, rfl⟩ | ⟨-, rfl⟩ <;> exact ⟨rfl, rfl⟩
    intro actor q hq ho hfree
    rw [hobj.1] at hq
    rw [hobj.2] at hfree
    rcases pipe_carried (by simp) hp hq with hold | ⟨_, _, _, he, -, -⟩
    · exact h actor q hold ho hfree
    · cases he
  · intro actor q hq ho hfree
    rcases pipe_carried hpush hp hq with hold | ⟨i, mem, cb, rfl, hpost, hi⟩
    · exact h actor q hold ho hfree
    · rw [(post_shape hpost).1]
      exact ha (hi.symm.trans ho)

theorem init_unprompted : Unprompted o m (init c) := by
  intro a p hp
  cases hp

theorem Seen.sequential {S : Host c} {a : Action c} {b : NativeSystem.Action c}
    (h : Seen o S a b) (hS : Unprompted o m S) (ha : Awaited o m S a) :
    Sequential m (view argv o S) b := by
  cases h with
  | js d =>
    cases d with
    | call m' => exact ha
    | resume i r => exact ha
    | _ => trivial
  | notify caller q n hposting hcarried ho hn =>
    show ¬ m.Completes n.1
    rw [hn]
    exact hS caller q hcarried ho (posting_none.mp hposting)
  | _ => trivial

end Steps

theorem reach_exact {argv : Emitted → List JsValue} {o : ℕ} {S : Host c}
    (hargv : ∀ e n, values (fun _ => none) e = some n → argv e = n.2)
    (h : Reach (step argv o) (Awaited o (opener c)) (init c) S) :
    ExactUse (view argv o S) (opener c) := by
  have hview : Reach NativeSystem.step (Sequential (opener c)) (NativeSystem.init c)
      (view argv o S) := by
    apply h.refine (I := fun S => Linked o S ∧ Unprompted o (opener c) S) (view argv o)
    · exact ⟨init_linked o, init_unprompted⟩
    · intro S a T hS ha hs
      exact ⟨step_linked S a T hS.1 ha.shared hs, step_unprompted S a T hS.2 ha hs⟩
    · intro S a T hS ha hs
      rcases step_view hargv hS.1 ha.shared hs with ⟨hsame, -⟩ | ⟨b, hb, hseen⟩
      · rw [hsame]
        exact Reach.refl _
      · exact Reach.single (hseen.sequential hS.2 ha) hb
  obtain ⟨hsane, hstage⟩ := reach_stage (opener c) (opener_reports c) hview
  exact hstage.exactUse hsane

/-- The client awaits, and failures throw. -/
def Orderly (o : ℕ) (S : Host c) (a : Action c) : Prop :=
  Throwing S a ∧ Awaited o (opener c) S a

def Serving (o : ℕ) (S : Host c) (a : Action c) : Prop :=
  Finishing S a ∧ Awaited o (opener c) S a

instance (o : ℕ) (S : Host c) (a : Action c) : Decidable (Orderly o S a) :=
  inferInstanceAs (Decidable (_ ∧ _))

instance (o : ℕ) (S : Host c) (a : Action c) : Decidable (Serving o S a) :=
  inferInstanceAs (Decidable (_ ∧ _))

theorem resume_ready {s : Obj c} {i : Id c} (r r' : Native)
    (h : Adapter.step s (.resume i r') = none) : Adapter.step s (.resume i r) = none := by
  cases hrun : s.running with
  | some j => simp [Adapter.step, hrun]
  | none =>
    simp only [Adapter.step, hrun, Obj.resume] at h ⊢
    cases hp : (s.calls i).phase <;> simp only [hp] at h ⊢
    · cases r' <;> cases h
    · cases h

theorem serving_rest {argv : Emitted → List JsValue} {o : ℕ} {T : Host c}
    (h : AtRest (step argv o) (Serving o) T) : AtRest (step argv o) Finishing T := by
  intro a ha
  by_cases hawaited : Awaited o (opener c) T a
  · exact h a ⟨ha, hawaited⟩
  · cases a with
    | js b =>
      cases b with
      | call m => exact ha.elim
      | resume i r =>
        have hnone := h (.js (.resume i (.accepted 0))) ⟨trivial, fun _ => rfl⟩
        by_cases hlt : o < T.pipe.handlers.length
        · have hstuck : Adapter.step T.obj (.resume i (.accepted 0)) = none := by
            simpa [step, hlt] using hnone
          simp [step, resume_ready r (.accepted 0) hstuck]
        · simp [step, hlt]
      | _ => exact absurd trivial hawaited
    | answer caller m ans => exact absurd trivial hawaited
    | pipe b =>
      cases b with
      | callback caller i mem cb => exact ha.elim
      | _ => exact absurd ha.throwing.shared hawaited

def Answered (m : Method c) (issued : ℕ) (T : Host c) : Prop :=
  ∀ n < issued, ∃ ans, (T.answers m)[n]? = some ans ∧
    (T.obj.calls (m, n)).promise = ans.promise

/-- A client that awaits gets its answers, in a whole process: for `join` on a
channel and `login` on the SDK, with any number of other objects, one queue and
any interleaving of the threads, use is exact at every moment; and once the
client makes no new call, every way to go on ends with the n-th promise settled
as the n-th answer says. -/
theorem awaited_calls_answered (argv : Emitted → List JsValue)
    (hargv : ∀ e n, values (fun _ => none) e = some n → argv e = n.2) (o : ℕ) (S : Host c) :
    (Reach (step argv o) (Awaited o (opener c)) (init c) S →
      ExactUse (view argv o S) (opener c)) ∧
    (Reach (step argv o) (Orderly o) (init c) S → o < S.pipe.handlers.length →
      (∀ as T, run (step argv o) (Serving o) S as = some T → as.length ≤ work S) ∧
      (∀ T, Reach (step argv o) (Serving o) S T → AtRest (step argv o) (Serving o) T →
        Answered (opener c) (S.obj.issued (opener c)) T) ∧
      ∃ as T, run (step argv o) (Serving o) S as = some T ∧
        Answered (opener c) (S.obj.issued (opener c)) T) := by
  refine ⟨reach_exact hargv, ?_⟩
  intro h ho
  apply comes_to_rest (I := fun T => Concluding argv o S.obj.issued T ∧
    Reach (step argv o) (Awaited o (opener c)) (init c) T)
  · rintro T a U ⟨hT, hreach⟩ ⟨hfin, hawaited⟩ hs
    obtain ⟨hU, hlt⟩ := step_concluding hargv hT hfin hs
    exact ⟨⟨hU, hreach.tail hawaited hs⟩, hlt⟩
  · rintro T ⟨hT, hreach⟩ hrest n hn
    have hconcluded := rest_concluded hargv hT (serving_rest hrest)
    exact (reach_exact hargv hreach).settled n (hconcluded.promises (opener c) n hn)
  · exact ⟨⟨h.mono fun _ _ => And.left, ho, rfl⟩, h.mono fun _ _ => And.right⟩

-- The first login is settled, and the second has been accepted.
def loginTwice : List (Action .AgoraRtmSDK) :=
  loginAmongOthers ++
  [.pipe (.queue .wake), .pipe (.queue .acquire), .pipe (.queue .test), .pipe (.queue .finish),
    .pipe (.queue .acquire), .pipe (.queue .test), .pipe (.queue .finish),
    .pipe (.queue .acquire), .pipe (.queue .test), .pipe (.queue .leave), .pipe .checkBegin,
    .pipe .immediate, .js (.call .login), .js (.timer (.login, 1)),
    .js (.resume (.login, 1) (.accepted 0))]

theorem awaited_calls_answered_twice :
    ∃ as T, run (step ownArgs 0) (Serving 0)
        (final (step ownArgs 0) (Orderly 0) (init .AgoraRtmSDK) loginTwice) as = some T ∧
      Answered .login 2 T := by
  have hboth := awaited_calls_answered ownArgs (fun e n h => by simp [ownArgs, h]) 0
    (final (step ownArgs 0) (Orderly 0) (init .AgoraRtmSDK) loginTwice)
  exact (hboth.2 (reach_final rfl) (by decide)).2.2

end AgoraRtm.Process
