import AgoraRtm.AdapterInvariant

/-!
# The lock and its holder

The lock is tested in the timer's turn and taken in the continuation's, and the
catch block unlocks whether or not the call has locked. A continuation is clear
if it finds its key unlocked. In runs of clear continuations the lock excludes
and nobody but a completion event opens it; one continuation that is not clear
is enough to lose both.
-/

set_option autoImplicit false

namespace AgoraRtm.Adapter
open Runs OnceTable NativeEvents

variable {c : JsClass}

def Clear (s : Obj c) : Action c → Prop
  | .resume i _ => ¬ s.Locked i.1
  | _ => True

instance (s : Obj c) (a : Action c) : Decidable (Clear s a) := by
  unfold Clear
  split <;> infer_instance

/-- No catch block runs while its key is locked. -/
def CatchClear (s : Obj c) : Action c → Prop
  | .resume i r => s.Enters i r ∨ ¬ s.Locked i.1
  | _ => True

instance (s : Obj c) (a : Action c) : Decidable (CatchClear s a) := by
  unfold CatchClear
  split <;> infer_instance

theorem clear_catchClear (s : Obj c) (a : Action c) (h : Clear s a) : CatchClear s a := by
  cases a with
  | resume i r => exact Or.inr h
  | _ => trivial

theorem Sane.release {s t : Obj c} {a : Action c} (h : Sane s) (hc : CatchClear s a) (m : Method c)
    (hs : step s a = some t) (hl : s.Locked m) (hopen : ¬ t.Locked m) :
    ∃ event args, a = .emit event args ∧ m.Completes event := by
  rcases h.step_cases hs with ⟨-, hmutex⟩ | ⟨i, r, rfl, -, hres⟩ | ⟨event, args, rfl, -, rfl⟩
  · exact absurd ((locked_congr (by rw [hmutex])).mpr hl) hopen
  · exfalso
    rcases h.resume_effect i r hres with ⟨hcatch, -, hmutex, -⟩ | ⟨-, -, hmutex⟩
    · have hkey : m ≠ i.1 := fun he => (hc.resolve_left hcatch) (he ▸ hl)
      exact hopen ((locked_unlock hmutex m).mpr ⟨hkey, hl⟩)
    · exact hopen ((locked_lock hmutex m).mpr (Or.inr hl))
  · refine ⟨event, args, rfl, ?_⟩
    by_contra hne
    exact hopen ((locked_congr (h.emit_aside event args m hne).2).mpr hl)

theorem step_flying_locked (s : Obj c) (a : Action c) (t : Obj c)
    (h : Sane s ∧ ∀ i, s.InFlight i → s.Locked i.1) (hc : CatchClear s a)
    (hs : step s a = some t) : Sane t ∧ ∀ i, t.InFlight i → t.Locked i.1 := by
  obtain ⟨hsane, hheld⟩ := h
  refine ⟨step_sane s a t hsane hs, ?_⟩
  intro j hj
  by_contra hopen
  by_cases hold : s.InFlight j
  · obtain ⟨event, args, rfl, hcomp⟩ := hsane.release hc j.1 hs (hheld j hold) hopen
    rcases hsane.step_cases hs with ⟨-, hmutex⟩ | ⟨i, r, ha, -⟩ | ⟨event', args', ha, hrun, rfl⟩
    · exact hopen ((locked_congr (by rw [hmutex])).mpr (hheld j hold))
    · cases ha
    · obtain ⟨rfl, rfl⟩ : event = event' ∧ args = args' := by simpa using ha
      exact ((hsane.emit_inFlight hrun event args j).mp hj).1 hcomp
  · rcases hsane.step_cases hs with ⟨hfly, -⟩ | ⟨i, r, rfl, -, hres⟩ | ⟨event, args, rfl, hrun, rfl⟩
    · exact hold ((hfly j).mp hj)
    · rcases hsane.resume_effect i r hres with ⟨-, hfly, -⟩ | ⟨-, hfly, hmutex⟩
      · exact hold ((hfly j).mp hj)
      · have hji := ((hfly j).mp hj).resolve_right hold
        exact hopen ((locked_lock hmutex j.1).mpr (Or.inl (by rw [hji])))
    · exact hold ((hsane.emit_inFlight hrun event args j).mp hj).2

theorem reach_flying_locked {s : Obj c} (h : Reach step CatchClear (init c) s) :
    Sane s ∧ ∀ i, s.InFlight i → s.Locked i.1 :=
  h.invariant ⟨init_sane, fun _ hi => absurd hi.1 (Nat.lt_irrefl 0)⟩ step_flying_locked

def Exclusive (s : Obj c) : Prop :=
  ∀ m n n', s.InFlight (m, n) → s.InFlight (m, n') → n = n'

structure Held (s : Obj c) : Prop where
  sane : Sane s
  single : Exclusive s
  held : ∀ i, s.InFlight i → s.Locked i.1

theorem init_held : Held (init c) where
  sane := init_sane
  single _ _ _ h := absurd h.1 (Nat.lt_irrefl 0)
  held _ h := absurd h.1 (Nat.lt_irrefl 0)

theorem exclusive_of_inFlight {s t : Obj c} (h : ∀ i, t.InFlight i → s.InFlight i)
    (hs : Exclusive s) : Exclusive t :=
  fun m n n' hn hn' => hs m n n' (h _ hn) (h _ hn')

theorem step_held (s : Obj c) (a : Action c) (t : Obj c) (h : Held s) (hc : Clear s a)
    (hs : step s a = some t) : Held t := by
  obtain ⟨hsane, hheld⟩ := step_flying_locked s a t ⟨h.sane, h.held⟩ (clear_catchClear s a hc) hs
  refine ⟨hsane, ?_, hheld⟩
  rcases h.sane.step_cases hs with ⟨hfly, -⟩ | ⟨i, r, rfl, -, hres⟩ | ⟨event, args, rfl, hrun, rfl⟩
  · exact exclusive_of_inFlight (fun i => (hfly i).mp) h.single
  · -- no call of the method is in flight before its clear continuation
    have hnone : ∀ j, s.InFlight j → j.1 ≠ i.1 := fun j hj he => hc (he ▸ h.held j hj)
    rcases h.sane.resume_effect i r hres with ⟨-, hfly, -⟩ | ⟨-, hfly, -⟩
    · exact exclusive_of_inFlight (fun j => (hfly j).mp) h.single
    · intro m n n' hn hn'
      rcases (hfly _).mp hn with rfl | hold
      · rcases (hfly _).mp hn' with he | hold'
        · exact (Prod.mk.inj he).2.symm
        · exact absurd rfl (hnone (m, n') hold')
      · rcases (hfly _).mp hn' with rfl | hold'
        · exact absurd rfl (hnone (m, n) hold)
        · exact h.single m n n' hold hold'
  · exact exclusive_of_inFlight (fun i hi =>
      ((h.sane.emit_inFlight hrun event args i).mp hi).2) h.single

theorem reach_held {s : Obj c} (h : Reach step Clear (init c) s) : Held s :=
  h.invariant init_held step_held

/-- With a call in flight and its key open, one more call gets through. -/
theorem Sane.overlap {s : Obj c} (h : Sane s) (hrun : s.running = none) (m : Method c) (n : ℕ)
    (hopen : ¬ s.Locked m) (hfly : s.InFlight (m, n)) :
    ∃ t, Reach step Clear s t ∧ ¬ Exclusive t := by
  have hne : n ≠ s.issued m := by
    intro he
    have hdone := h.inFlight_done _ hfly
    rw [he, h.fresh m _ (Nat.le_refl _)] at hdone
    cases hdone
  have hother : (m, n) ≠ (m, s.issued m) := by simpa using hne
  -- the timer finds the key open, and so does the continuation
  have hclear : Clear (s.passing m) (.resume (m, s.issued m) (.accepted 0)) := hopen
  have hreach : Reach step Clear s (s.entering m) := ((Reach.single trivial (step_issue hrun)).tail
    trivial (step_passing hrun hopen)).tail hclear (step_entering hrun)
  refine ⟨s.entering m, hreach, ?_⟩
  intro hexcl
  have hold : (s.entering m).InFlight (m, n) := (inFlight_congr (entering_other _ hother)).mpr hfly
  exact hne (hexcl m n (s.issued m) hold entering_inFlight)

theorem Sane.unclear {s t : Obj c} (h : Sane s) (i : Id c) (r : Native)
    (hc : ¬ Clear s (.resume i r)) (hs : step s (.resume i r) = some t) :
    ∃ u, Reach step Clear t u ∧ ¬ Exclusive u := by
  obtain ⟨n, hn⟩ := h.locked i.1 (not_not.mp hc)
  obtain ⟨hrun, hres⟩ := step_resume hs
  have hsane := step_sane s _ t h hs
  rcases h.resume_effect i r hres with ⟨-, hfly, hmutex, hrest⟩ | ⟨-, hfly, -⟩
  · -- the key has been opened over the call in flight
    apply hsane.overlap (by rw [hrest, hrun]) i.1 n
    · simp [locked_unlock hmutex]
    · exact (hfly _).mpr hn
  · refine ⟨t, Reach.refl t, ?_⟩
    intro hexcl
    have heq : n = i.2 := hexcl i.1 n i.2 ((hfly _).mpr (Or.inr hn)) ((hfly _).mpr (Or.inl rfl))
    subst heq
    exact resume_not_done hres (h.inFlight_done i hn)

/-- Mutual exclusion, in every run of clear continuations; any continuation
that is not clear leads on to two calls of its method in flight. -/
theorem mutual_exclusion (c : JsClass) :
    (∀ s : Obj c, Reach step Clear (init c) s → Exclusive s) ∧
    (∀ (s t : Obj c) (i : Id c) (r : Native), Reach step always (init c) s →
      ¬ Clear s (.resume i r) → step s (.resume i r) = some t →
      ∃ u, Reach step Clear t u ∧ ¬ Exclusive u) :=
  ⟨fun _ h => (reach_held h).single,
    fun _ _ i r h hc hs => (reach_sane h).unclear i r hc hs⟩

def loginRun : List (Action .AgoraRtmSDK) :=
  [.call .login, .timer (.login, 0), .resume (.login, 0) (.accepted 0), .register]

-- Both waits end before the first continuation.
def overlapRun : List (Action .AgoraRtmSDK) :=
  [.call .login, .call .login, .timer (.login, 0), .timer (.login, 1),
    .resume (.login, 0) (.accepted 0), .register]

theorem mutual_exclusion_login :
    Exclusive (final step Clear (init .AgoraRtmSDK) loginRun) ∧
    ∃ u, Reach step Clear (((final step always (init .AgoraRtmSDK) overlapRun).enter
      (.login, 1)).inTurn (.login, 1)) u ∧ ¬ Exclusive u :=
  ⟨(mutual_exclusion .AgoraRtmSDK).1 _ (reach_final rfl),
    (mutual_exclusion .AgoraRtmSDK).2 (final step always (init .AgoraRtmSDK) overlapRun) _
      (.login, 1) (.accepted 0) (reach_final rfl) (by decide) rfl⟩

theorem two_logins_in_flight :
    ¬ ∀ s : Obj .AgoraRtmSDK, Reach step always (init .AgoraRtmSDK) s → Exclusive s := by
  intro h
  have hreach : Reach step always (init .AgoraRtmSDK) (final step always (init .AgoraRtmSDK)
      (overlapRun ++ [.resume (.login, 1) (.accepted 0)])) := reach_final rfl
  have heq : (0 : ℕ) = 1 := h _ hreach .login 0 1 (by decide) (by decide)
  cases heq

/-- What the holder of a key is promised of the steps from a state: a refused
call leaves the lock table as it was, the key is opened by a completion event of
its method only, and a wait that ends meanwhile is refused. -/
structure Undisturbed (ok : Obj c → Action c → Prop) (s : Obj c) (holder : Id c) : Prop where
  refusal : ∀ i message r t, (s.calls i).phase = .refused message → ok s (.resume i r) →
    step s (.resume i r) = some t → t.mutex = s.mutex
  release : ∀ a t, ok s a → step s a = some t → ¬ t.Locked holder.1 →
    ∃ event args, a = .emit event args ∧ holder.1.Completes event
  wait : ∀ i t, i.1 = holder.1 → step s (.timer i) = some t →
    (t.calls i).phase = .refused (i.1.key ++ " has been locked")

theorem step_wait {s t : Obj c} {i : Id c} (hl : s.Locked i.1) (hs : step s (.timer i) = some t) :
    (t.calls i).phase = .refused (i.1.key ++ " has been locked") := by
  have hlocked : s.mutex.locked i.1.key = true := hl
  obtain ⟨-, -, rfl⟩ := step_timer hs
  simp [Obj.waited, Mutex.wait, hlocked]

theorem Sane.refusal_mutex {s t : Obj c} (h : Sane s) (i : Id c) (message : String) (r : Native)
    (hp : (s.calls i).phase = .refused message) (hopen : ¬ s.Locked i.1)
    (hs : s.resume i r = some t) : t.mutex = s.mutex := by
  have hentry := (h.refused i message hp).2
  have hfalse : s.mutex.lockers i.1.key = some false := by
    cases hl : s.mutex.lockers i.1.key with
    | none => exact absurd hl hentry
    | some b => cases b with
      | false => rfl
      | true => exact absurd (by simp [Obj.Locked, Mutex.locked, hl]) hopen
  rcases h.resume_effect i r hs with ⟨-, -, hmutex, -⟩ | ⟨hent, -⟩
  · rw [hmutex, Mutex.unlock, ← hfalse, Function.update_eq_self]
  · rw [Obj.Enters, hp] at hent
    cases hent.1

theorem reach_undisturbed {s : Obj c} (h : Reach step CatchClear (init c) s) (holder : Id c)
    (hi : s.InFlight holder) : s.Locked holder.1 ∧ Undisturbed CatchClear s holder := by
  obtain ⟨hsane, hheld⟩ := reach_flying_locked h
  refine ⟨hheld holder hi, ?_, ?_, ?_⟩
  · intro i message r t hp hc hs
    have hopen : ¬ s.Locked i.1 := by
      rcases hc with hent | hopen
      · rw [Obj.Enters, hp] at hent
        cases hent.1
      · exact hopen
    exact hsane.refusal_mutex i message r hp hopen (step_resume hs).2
  · intro a t hc hs hopen
    exact hsane.release hc holder.1 hs (hheld holder hi) hopen
  · intro i t hkey hs
    exact step_wait (hkey ▸ hheld holder hi) hs

/-- Rejected calls do not disturb the holder of the key, in every run whose
catch blocks all find their key unlocked. A catch block that finds its key
locked opens it over a call that stays in flight. -/
theorem holder_undisturbed (c : JsClass) :
    (∀ s : Obj c, Reach step CatchClear (init c) s → ∀ holder, s.InFlight holder →
      s.Locked holder.1 ∧ Undisturbed CatchClear s holder) ∧
    (∀ (s t : Obj c) (i : Id c) (r : Native), Reach step always (init c) s →
      ¬ CatchClear s (.resume i r) → step s (.resume i r) = some t →
      ∃ n, s.InFlight (i.1, n) ∧ t.InFlight (i.1, n) ∧ s.Locked i.1 ∧ ¬ t.Locked i.1) := by
  refine ⟨fun s h holder hi => reach_undisturbed h holder hi, ?_⟩
  intro s t i r h hc hs
  have hsane := reach_sane h
  obtain ⟨hcatch, hlocked⟩ := not_or.mp hc
  obtain ⟨n, hn⟩ := hsane.locked i.1 (not_not.mp hlocked)
  rcases hsane.resume_effect i r (step_resume hs).2 with ⟨-, hfly, hmutex, -⟩ | ⟨hent, -⟩
  · refine ⟨n, hn, (hfly _).mpr hn, not_not.mp hlocked, ?_⟩
    simp [locked_unlock hmutex]
  · exact absurd hent hcatch

-- The second login waits while the first is in flight and is refused.
def refusedRun : List (Action .AgoraRtmSDK) :=
  loginRun ++ [.call .login, .timer (.login, 1)]

theorem holder_undisturbed_login :
    (final step CatchClear (init .AgoraRtmSDK) loginRun).Locked .login ∧
    ∃ n, (final step always (init .AgoraRtmSDK) refusedRun).InFlight (.login, n) :=
  ⟨((holder_undisturbed .AgoraRtmSDK).1 _ (reach_final rfl) (.login, 0) (by decide)).1,
    ((holder_undisturbed .AgoraRtmSDK).2 (final step always (init .AgoraRtmSDK) refusedRun) _
      (.login, 1) (.accepted 0) (reach_final rfl) (by decide) rfl).imp fun _ h => h.1⟩

/-- The refused login's catch block opens the key of the login in flight. -/
theorem refusal_opens_key :
    ¬ ∀ (s : Obj .AgoraRtmSDK) (holder : Id .AgoraRtmSDK), Reach step always (init .AgoraRtmSDK) s →
      s.InFlight holder → s.Locked holder.1 → Undisturbed always s holder := by
  intro h
  have hreach : Reach step always (init .AgoraRtmSDK)
      (final step always (init .AgoraRtmSDK) refusedRun) := reach_final rfl
  have hsame := (h _ (.login, 0) hreach (by decide) (by decide)).refusal (.login, 1)
    "login has been locked" (.accepted 0) _ rfl trivial rfl
  have hkey := congrArg (fun μ => μ.lockers "login") hsame
  cases hkey

end AgoraRtm.Adapter
