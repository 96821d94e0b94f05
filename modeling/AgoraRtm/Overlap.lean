import AgoraRtm.ListenerTable
import AgoraRtm.Histories
import Mathlib.Data.List.Nodup

/-!
# How far calls overlap

A runtime may run each continuation right behind its timer callback, or let other
callbacks run between the two. In the first case nothing comes between the test of
a key and its taking, and what is left is the catch block of a refused call, which
opens the key over the call that holds it. Then the refusals since the last
completion bound the calls in flight. In the second there is no bound.
-/

set_option autoImplicit false

namespace AgoraRtm.Adapter
open Runs OnceTable NativeEvents

variable {c : JsClass}

def Phase.resumes : Phase → Bool
  | .passed => true
  | .refused _ => true
  | _ => false

def Action.resumes (i : Id c) : Action c → Bool
  | .resume j _ => j = i
  | _ => false

/-- A continuation runs before anything else does. -/
def Prompt (s : Obj c) (a : Action c) : Prop :=
  ∀ m ∈ methods c, ∀ n < s.issued m, (s.calls (m, n)).phase.resumes = true →
    a.resumes (m, n) = true

instance (s : Obj c) (a : Action c) : Decidable (Prompt s a) :=
  inferInstanceAs (Decidable (∀ m ∈ methods c, ∀ n < s.issued m, _))

inductive Note (c : JsClass) where
  | refused (m : Method c)
  | emitted (event : String)
  deriving DecidableEq

/-- The refusals that reach the catch block, and the events emitted. -/
def notes (s : Obj c) : Action c → List (Note c)
  | .resume i _ =>
    match (s.calls i).phase with
    | .refused _ => [.refused i.1]
    | _ => []
  | .emit event _ => [.emitted event]
  | _ => []

def Note.Completes (m : Method c) : Note c → Prop
  | .emitted event => m.Completes event
  | .refused _ => False

instance (m : Method c) : DecidablePred (Note.Completes m)
  | .emitted event => inferInstanceAs (Decidable (m.Completes event))
  | .refused _ => .isFalse id

def refusals (m : Method c) (record : List (Note c)) : ℕ :=
  countSince (· = .refused m) (Note.Completes m) record

abbrev Noted (c : JsClass) := Recorded (Obj c) (Note c)

def unnoted (c : JsClass) : Noted c := ⟨init c, []⟩

theorem refusals_refused (m m' : Method c) (record : List (Note c)) :
    refusals m (record ++ [.refused m']) =
      if m' = m then refusals m record+1 else refusals m record := by
  rw [refusals, countSince_concat]
  simp [Note.Completes, refusals]

theorem refusals_emitted (m : Method c) (event : String) (record : List (Note c)) :
    refusals m (record ++ [.emitted event]) = if m.Completes event then 0 else
      refusals m record := by
  rw [refusals, countSince_concat]
  simp [Note.Completes, refusals]

section Counting

variable {s t : Obj c}

theorem flying_nodup (s : Obj c) (m : Method c) : (s.flying m).Nodup := by
  apply List.filter_sublist.nodup
  exact List.Nodup.map (fun n n' he => (Prod.mk.inj he).2) List.nodup_range

theorem Sane.mem_flying (h : Sane s) (m : Method c) (i : Id c) :
    i ∈ s.flying m ↔ i.1 = m ∧ s.InFlight i := by
  obtain ⟨m', n⟩ := i
  simp only [Obj.flying, List.mem_filter, List.mem_map, List.mem_range, decide_eq_true_eq]
  constructor
  · rintro ⟨⟨k, -, he⟩, hfly⟩
    exact ⟨(Prod.mk.inj he).1.symm, hfly⟩
  · rintro ⟨rfl, hfly⟩
    have hlt := h.issued_of_phase (m', n) (by simp [h.inFlight_done _ hfly])
    exact ⟨⟨n, hlt, rfl⟩, hfly⟩

theorem flying_same (hs : Sane s) (ht : Sane t) (m : Method c)
    (hfly : ∀ n, t.InFlight (m, n) ↔ s.InFlight (m, n)) :
    (t.flying m).length = (s.flying m).length := by
  apply List.Perm.length_eq
  rw [List.perm_ext_iff_of_nodup (flying_nodup t m) (flying_nodup s m)]
  rintro ⟨m', n⟩
  rw [ht.mem_flying, hs.mem_flying]
  exact and_congr_right fun he => by rw [show m' = m from he]; exact hfly n

theorem flying_more (hs : Sane s) (ht : Sane t) (i : Id c) (hnot : ¬ s.InFlight i)
    (hfly : ∀ j, t.InFlight j ↔ j = i ∨ s.InFlight j) :
    (t.flying i.1).length = (s.flying i.1).length+1 := by
  have hnew : i ∉ s.flying i.1 := fun hi => hnot ((hs.mem_flying i.1 i).mp hi).2
  have hperm : (t.flying i.1).Perm (i :: s.flying i.1) := by
    rw [List.perm_ext_iff_of_nodup (flying_nodup t i.1)
      (List.nodup_cons.mpr ⟨hnew, flying_nodup s i.1⟩)]
    intro j
    rw [ht.mem_flying, List.mem_cons, hs.mem_flying, hfly j]
    constructor
    · rintro ⟨hm, rfl | hold⟩
      · exact Or.inl rfl
      · exact Or.inr ⟨hm, hold⟩
    · rintro (rfl | ⟨hm, hold⟩)
      · exact ⟨rfl, Or.inl rfl⟩
      · exact ⟨hm, Or.inr hold⟩
  exact hperm.length_eq

theorem flying_none (h : Sane s) (m : Method c) (hnone : ∀ n, ¬ s.InFlight (m, n)) :
    s.flying m = [] := by
  rw [List.eq_nil_iff_forall_not_mem]
  rintro ⟨m', n⟩ hi
  obtain ⟨rfl, hfly⟩ := (h.mem_flying m _).mp hi
  exact hnone n hfly

end Counting

/-- In prompt runs a call that has waited finds the key as its timer did, and the
calls in flight are bounded by the refusals, and one more if the key is locked. -/
structure Tallied (R : Noted c) : Prop where
  sane : Sane R.state
  passed : ∀ i, (R.state.calls i).phase = .passed → ¬ R.state.Locked i.1
  refused : ∀ i message, (R.state.calls i).phase = .refused message → R.state.Locked i.1
  tally : ∀ m, (R.state.flying m).length ≤
    refusals m R.record+if R.state.Locked m then 1 else 0

theorem unnoted_tallied : Tallied (unnoted c) where
  sane := init_sane
  passed _ h := by cases h
  refused _ _ h := by cases h
  tally _ := Nat.zero_le _

section Prompt

variable {s t : Obj c}

theorem Sane.prompt (h : Sane s) {a : Action c} (ha : Prompt s a) (i : Id c)
    (hi : (s.calls i).phase.resumes = true) : ∃ r, a = .resume i r := by
  obtain ⟨m, n⟩ := i
  have hlt : n < s.issued m := by
    refine h.issued_of_phase (m, n) fun hp => ?_
    rw [hp] at hi
    cases hi
  have hresumes := ha m (mem_methods m) n hlt hi
  cases a with
  | resume j r =>
    obtain rfl : j = (m, n) := of_decide_eq_true hresumes
    exact ⟨r, rfl⟩
  | _ => cases hresumes

theorem Sane.step_resumes (h : Sane s) {a : Action c} (ha : Prompt s a) (hs : step s a = some t)
    (i : Id c) (hi : (t.calls i).phase.resumes = true) : a = .timer i := by
  have hbefore : t.calls i = s.calls i → (∀ r, a ≠ .resume i r) → a = .timer i := by
    intro hsame hne
    rw [hsame] at hi
    obtain ⟨r, he⟩ := h.prompt ha i hi
    exact absurd he (hne r)
  cases a with
  | call m =>
    obtain ⟨-, rfl⟩ := step_call hs
    by_cases him : i = (m, s.issued m)
    · subst him
      simp [Obj.issue, Phase.resumes] at hi
    · exact hbefore (Obj.setCall_other _ _ _ _ him) (by simp)
  | timer j =>
    obtain ⟨-, -, rfl⟩ := step_timer hs
    by_cases hij : i = j
    · rw [hij]
    · exact hbefore (Obj.setCall_other _ _ _ _ hij) (by simp)
  | resume j r =>
    have hdone : (t.calls j).phase = .done := by
      rcases h.resume_cases j r (step_resume hs).2 with ⟨err, -, -, rfl⟩ | ⟨-, -, rfl⟩ |
        ⟨message, -, rfl⟩ <;> simp [Obj.inTurn]
    have hij : i ≠ j := by
      rintro rfl
      rw [hdone] at hi
      cases hi
    refine hbefore ?_ (by simpa using fun he => absurd he.symm hij)
    rcases h.resume_cases j r (step_resume hs).2 with ⟨err, -, -, rfl⟩ | ⟨-, -, rfl⟩ |
      ⟨message, -, rfl⟩ <;> exact Obj.setCall_other _ _ _ _ hij
  | register =>
    obtain ⟨j, -, rfl⟩ := step_register hs
    exact hbefore rfl (by simp)
  | emit event args =>
    obtain ⟨-, rfl⟩ := step_emit hs
    rw [Obj.emit_call] at hi
    obtain ⟨r, he⟩ := h.prompt ha i hi
    cases he

theorem waited_cases (s : Obj c) (i : Id c) :
    (¬ s.Locked i.1 ∧ s.waited i = .passed) ∨
      (s.Locked i.1 ∧ ∃ message, s.waited i = .refused message) := by
  by_cases hl : s.mutex.locked i.1.key = true
  · exact Or.inr ⟨hl, i.1.key ++ " has been locked", by simp [Obj.waited, Mutex.wait, hl]⟩
  · exact Or.inl ⟨hl, by simp [Obj.waited, Mutex.wait, hl]⟩

theorem Tallied.same {R : Noted c} (h : Tallied R) (ht : Sane t) (m : Method c)
    (hfly : ∀ n, t.InFlight (m, n) ↔ R.state.InFlight (m, n))
    (hlocked : t.Locked m ↔ R.state.Locked m) :
    (t.flying m).length ≤ refusals m R.record+if t.Locked m then 1 else 0 := by
  rw [flying_same h.sane ht m hfly, if_congr hlocked rfl rfl]
  exact h.tally m

theorem Tallied.resume {R : Noted c} (h : Tallied R) (ht : Sane t) {i : Id c} {r : Native}
    (hs : R.state.resume i r = some t) (m : Method c) :
    (t.flying m).length ≤ refusals m (R.record ++ notes R.state (.resume i r))+
      if t.Locked m then 1 else 0 := by
  have htally := h.tally m
  have hnot : ¬ R.state.InFlight i := fun hi => resume_not_done hs (h.sane.inFlight_done i hi)
  rcases h.sane.resume_effect i r hs with ⟨hcatch, hfly, hmutex, -⟩ | ⟨hent, hfly, hmutex⟩
  · rw [flying_same h.sane ht m fun n => hfly (m, n)]
    have hlocked := locked_unlock hmutex m
    rcases h.sane.resume_cases i r hs with ⟨err, hp, -, -⟩ | ⟨hp, hr, -⟩ | ⟨message, hp, -⟩
    · -- it threw; the key was open
      have hnotes : notes R.state (.resume i r) = [] := by simp [notes, hp]
      have hopen := h.passed i hp
      rw [hnotes, List.append_nil]
      by_cases hm : m = i.1
      · subst hm
        simpa [hlocked, hopen] using htally
      · simpa [hlocked, hm] using htally
    · exact absurd ⟨hp, by cases r <;> simp_all [Native.returns]⟩ hcatch
    · have hnotes : notes R.state (.resume i r) = [.refused i.1] := by simp [notes, hp]
      have hclosed := h.refused i message hp
      rw [hnotes, refusals_refused]
      by_cases hm : m = i.1
      · subst hm
        simpa [hlocked, hclosed] using htally
      · simpa [hlocked, hm, Ne.symm hm] using htally
  · have hnotes : notes R.state (.resume i r) = [] := by simp [notes, hent.1]
    have hlocked := locked_lock hmutex m
    have hopen := h.passed i hent.1
    rw [hnotes, List.append_nil]
    by_cases hm : m = i.1
    · subst hm
      rw [flying_more h.sane ht i hnot hfly]
      simpa [hlocked, hopen] using htally
    · have hother : ∀ n, t.InFlight (m, n) ↔ R.state.InFlight (m, n) := by
        intro n
        have hne : (m, n) ≠ i := fun he => hm (he ▸ rfl)
        simpa [hne] using hfly (m, n)
      rw [flying_same h.sane ht m hother]
      simpa [hlocked, hm] using htally

theorem Tallied.emit {R : Noted c} (h : Tallied R) (hrun : R.state.running = none)
    (event : String) (args : List JsValue) (m : Method c) :
    ((R.state.emit event args).flying m).length ≤
      refusals m (R.record ++ notes R.state (.emit event args))+
      if (R.state.emit event args).Locked m then 1 else 0 := by
  have hsane := h.sane.emit hrun event args
  have hfly := h.sane.emit_inFlight hrun event args
  have hnotes : notes R.state (.emit event args) = [.emitted event] := rfl
  rw [hnotes, refusals_emitted]
  by_cases hm : m.Completes event
  · rw [flying_none hsane m fun n hn => ((hfly (m, n)).mp hn).1 hm]
    exact Nat.zero_le _
  · rw [if_neg hm]
    apply h.same hsane m
    · intro n
      simpa [hm] using hfly (m, n)
    · exact locked_congr (h.sane.emit_aside event args m hm).2

theorem step_tallied {R T : Noted c} {a : Action c} (h : Tallied R) (ha : Prompt R.state a)
    (hs : recorded step notes R a = some T) : Tallied T := by
  obtain ⟨t, ht, rfl⟩ := recorded_cases hs
  have hsane := step_sane R.state a t h.sane ht
  have hwaited : ∀ i, (t.calls i).phase.resumes = true →
      (t.Locked i.1 ↔ R.state.Locked i.1) ∧ (t.calls i).phase = R.state.waited i := by
    intro i hi
    obtain rfl := h.sane.step_resumes ha ht i hi
    obtain ⟨-, -, rfl⟩ := step_timer ht
    exact ⟨Iff.rfl, by simp⟩
  refine ⟨hsane, ?_, ?_, ?_⟩
  · intro i hp
    obtain ⟨hlocked, hsame⟩ := hwaited i (by rw [hp]; rfl)
    rcases waited_cases R.state i with ⟨hopen, -⟩ | ⟨-, message, hrefused⟩
    · exact fun hl => hopen (hlocked.mp hl)
    · rw [hsame, hrefused] at hp
      cases hp
  · intro i message hp
    obtain ⟨hlocked, hsame⟩ := hwaited i (by rw [hp]; rfl)
    rcases waited_cases R.state i with ⟨-, hpassed⟩ | ⟨hclosed, -⟩
    · rw [hsame, hpassed] at hp
      cases hp
    · exact hlocked.mpr hclosed
  · intro m
    -- a call, a timer and a registration note nothing
    have hplain : (∀ i r, a ≠ .resume i r) → (∀ event args, a ≠ .emit event args) →
        notes R.state a = [] →
        (t.flying m).length ≤ refusals m (R.record ++ notes R.state a)+
          if t.Locked m then 1 else 0 := by
      intro hresume hemit hnotes
      rw [hnotes, List.append_nil]
      rcases h.sane.step_cases ht with ⟨hfly, hmutex⟩ | ⟨i, r, he, -⟩ | ⟨event, args, he, -⟩
      · exact h.same hsane m (fun n => hfly (m, n)) (locked_congr (by rw [hmutex]))
      · exact absurd he (hresume i r)
      · exact absurd he (hemit event args)
    cases a with
    | resume i r => exact h.resume hsane (step_resume ht).2 m
    | emit event args =>
      obtain ⟨hrun, rfl⟩ := step_emit ht
      exact h.emit hrun event args m
    | _ => exact hplain (by simp) (by simp) rfl

end Prompt

section Crowding

variable {s : Obj c} {m : Method c} {flying refused : ℕ} {R : Noted c}

structure Entered (s u : Obj c) (i : Id c) : Prop where
  sane : Sane u
  idle : u.running = none
  locked : u.Locked i.1
  flying : (u.flying i.1).length = (s.flying i.1).length+1
  issued : u.issued = s.issued
  others : ∀ j, j ≠ i → u.calls j = s.calls j

theorem Sane.entered (h : Sane s) (hrun : s.running = none) (i : Id c)
    (hp : (s.calls i).phase = .passed) : ∃ t u, step s (.resume i (.accepted 0)) = some t ∧
      step t .register = some u ∧ Entered s u i := by
  have hresume : s.resume i (.accepted 0) = some ((s.enter i).inTurn i) := by
    simp [Obj.resume, hp]
  have hstep : step s (.resume i (.accepted 0)) = some ((s.enter i).inTurn i) := by
    simp [step, hrun, hresume]
  have hregister : step ((s.enter i).inTurn i) .register =
      some (((s.enter i).inTurn i).register i) := rfl
  refine ⟨_, _, hstep, hregister, ?_⟩
  have hsane := step_sane _ _ _ (step_sane _ _ _ h hstep) hregister
  have hnot : ¬ s.InFlight i := fun hi => resume_not_done hresume (h.inFlight_done i hi)
  rcases h.resume_effect i _ hresume with ⟨hcatch, -⟩ | ⟨-, hfly, hmutex⟩
  · exact absurd ⟨hp, rfl⟩ hcatch
  · refine ⟨hsane, rfl, ?_, flying_more h hsane i hnot hfly, rfl, ?_⟩
    · exact (locked_lock hmutex i.1).mpr (Or.inl rfl)
    · exact fun j hj => Obj.setCall_other _ _ _ _ hj

theorem prompt_of_quiet (hquiet : ∀ i, (s.calls i).phase.resumes = false) (a : Action c) :
    Prompt s a := by
  intro m _ n _ hresumes
  rw [hquiet (m, n)] at hresumes
  cases hresumes

theorem Sane.step_quiet {t : Obj c} (h : Sane s) {a : Action c} (ha : Prompt s a)
    (hs : step s a = some t) (hne : ∀ i, a ≠ .timer i) (i : Id c) :
    (t.calls i).phase.resumes = false := by
  by_contra hresumes
  exact hne i (h.step_resumes ha hs i (by simpa using hresumes))

structure Idle (m : Method c) (flying refused : ℕ) (R : Noted c) : Prop where
  sane : Sane R.state
  idle : R.state.running = none
  quiet : ∀ i, (R.state.calls i).phase.resumes = false
  flying : (R.state.flying m).length = flying
  refused : refusals m R.record = refused

theorem unnoted_idle (m : Method c) : Idle m 0 0 (unnoted c) :=
  ⟨init_sane, rfl, fun _ => rfl, rfl, rfl⟩

structure Waited (s t : Obj c) (i : Id c) : Prop where
  sane : Sane t
  idle : t.running = none
  phase : (t.calls i).phase = s.waited i
  flying : ∀ j, t.InFlight j ↔ s.InFlight j
  mutex : t.mutex = s.mutex
  issued : t.issued i.1 = s.issued i.1+1
  others : ∀ j, j ≠ i → t.calls j = s.calls j

theorem Sane.waits (h : Sane s) (hrun : s.running = none) (m : Method c) :
    ∃ t, step (s.issue m) (.timer (m, s.issued m)) = some t ∧ Waited s t (m, s.issued m) := by
  have hcall := step_issue (s := s) (m := m) hrun
  have hwaiting : (s.issue m).calls (m, s.issued m) = ⟨.waiting, .pending, 0⟩ := by
    simp [Obj.issue]
  have hrunning : (s.issue m).running = none := hrun
  have htimer : step (s.issue m) (.timer (m, s.issued m)) = some ((s.issue m).setCall
      (m, s.issued m) ⟨s.waited (m, s.issued m), .pending, 0⟩) := by
    simp only [step, hrunning, hwaiting, ↓reduceIte]
    rfl
  have hissued := step_sane s _ _ h hcall
  refine ⟨_, htimer, step_sane _ _ _ hissued htimer, hrun, by simp, ?_, rfl, ?_, ?_⟩
  · intro j
    rcases h.step_cases hcall with ⟨hfly, -⟩ | ⟨_, _, he, -⟩ | ⟨_, _, he, -⟩
    · rcases hissued.step_cases htimer with ⟨hfly', -⟩ | ⟨_, _, he, -⟩ | ⟨_, _, he, -⟩
      · exact (hfly' j).trans (hfly j)
      · cases he
      · cases he
    · cases he
    · cases he
  · show (s.issue m).issued m = s.issued m+1
    simp [Obj.issue]
  · intro j hj
    rw [Obj.setCall_other _ _ _ _ hj]
    exact Obj.setCall_other _ _ _ _ hj

theorem Idle.waits (h : Idle m flying refused R) :
    ∃ t, Reach (recorded step notes) (unread Prompt) R ⟨t, R.record⟩ ∧
      Waited R.state t (m, R.state.issued m) ∧
      ∀ r, Prompt t (.resume (m, R.state.issued m) r) := by
  obtain ⟨t, htimer, hwaited⟩ := h.sane.waits h.idle m
  have hcall := step_issue (m := m) h.idle
  have hprompt := prompt_of_quiet h.quiet (.call m)
  have hissued := step_sane _ _ _ h.sane hcall
  have hquiet := h.sane.step_quiet hprompt hcall (by simp)
  have hprompt' := prompt_of_quiet hquiet (.timer (m, R.state.issued m))
  have hfirst : Reach (recorded step notes) (unread Prompt) R
      ⟨R.state.issue m, R.record ++ notes R.state (.call m)⟩ :=
    Reach.single hprompt (recorded_step hcall)
  have hreach := hfirst.tail hprompt' (recorded_step htimer)
  refine ⟨t, by simpa [notes] using hreach, hwaited, ?_⟩
  intro r m' _ n _ hresumes
  have he := hissued.step_resumes hprompt' htimer (m', n) hresumes
  obtain ⟨rfl, rfl⟩ : m = m' ∧ R.state.issued m = n := by simpa using he
  simp [Action.resumes]

theorem Idle.enter (h : Idle m flying refused R) (hopen : ¬ R.state.Locked m) :
    ∃ T, Reach (recorded step notes) (unread Prompt) R T ∧ Idle m (flying+1) refused T ∧
      T.state.Locked m := by
  obtain ⟨s, hreach, hwaited, hprompt⟩ := h.waits
  have hp : (s.calls (m, R.state.issued m)).phase = .passed := by
    rcases waited_cases R.state (m, R.state.issued m) with ⟨-, hpassed⟩ | ⟨hl, -⟩
    · rw [hwaited.phase, hpassed]
    · exact absurd hl hopen
  obtain ⟨t, u, ht, hu, hentered⟩ := hwaited.sane.entered hwaited.idle _ hp
  have hsane := step_sane _ _ _ hwaited.sane ht
  have hquiet := hwaited.sane.step_quiet (hprompt _) ht (by simp)
  have hprompt' := prompt_of_quiet hquiet .register
  have hnotes : notes s (.resume (m, R.state.issued m) (.accepted 0)) = [] := by simp [notes, hp]
  have hrest := (hreach.tail (hprompt _) (recorded_step ht)).tail hprompt' (recorded_step hu)
  refine ⟨_, hrest, ⟨hentered.sane, hentered.idle, ?_, ?_, ?_⟩, hentered.locked⟩
  · exact hsane.step_quiet hprompt' hu (by simp)
  · rw [hentered.flying, flying_same h.sane hwaited.sane m fun n => hwaited.flying (m, n),
      h.flying]
  · have hnone : notes t .register = [] := rfl
    simpa only [hnotes, hnone, List.append_nil] using h.refused

theorem Idle.refuse (h : Idle m flying refused R) (hlocked : R.state.Locked m) :
    ∃ T, Reach (recorded step notes) (unread Prompt) R T ∧ Idle m flying (refused+1) T ∧
      ¬ T.state.Locked m := by
  obtain ⟨s, hreach, hwaited, hprompt⟩ := h.waits
  obtain ⟨message, hp⟩ : ∃ message,
      (s.calls (m, R.state.issued m)).phase = .refused message := by
    rcases waited_cases R.state (m, R.state.issued m) with ⟨hopen, -⟩ | ⟨-, message, hrefused⟩
    · exact absurd hlocked hopen
    · exact ⟨message, by rw [hwaited.phase, hrefused]⟩
  have hresume : s.resume (m, R.state.issued m) (.accepted 0) =
      some ((s.leaveWait (m, R.state.issued m)).caught (m, R.state.issued m)
        (.error message)) := by
    simp [Obj.resume, hp]
  have ht : step s (.resume (m, R.state.issued m) (.accepted 0)) =
      some ((s.leaveWait (m, R.state.issued m)).caught (m, R.state.issued m)
        (.error message)) := by
    simp [step, hwaited.idle, hresume]
  have hsane := step_sane _ _ _ hwaited.sane ht
  have hquiet := hwaited.sane.step_quiet (hprompt _) ht (by simp)
  have hnotes : notes s (.resume (m, R.state.issued m) (.accepted 0)) = [.refused m] := by
    simp [notes, hp]
  have hrest := hreach.tail (hprompt _) (recorded_step ht)
  rcases hwaited.sane.resume_effect _ _ hresume with ⟨-, hfly, hmutex, hrun⟩ | ⟨hent, -⟩
  · refine ⟨_, hrest, ⟨hsane, hrun.trans hwaited.idle, hquiet, ?_, ?_⟩, ?_⟩
    · rw [← h.flying]
      apply flying_same h.sane hsane
      exact fun n => (hfly (m, n)).trans (hwaited.flying (m, n))
    · simp [hnotes, refusals_refused, h.refused]
    · simp [locked_unlock hmutex]
  · rw [Obj.Enters, hp] at hent
    cases hent.1

theorem reach_crowded (m : Method c) (k : ℕ) :
    ∃ R, Reach (recorded step notes) (unread Prompt) (unnoted c) R ∧ Idle m (k+1) k R ∧
      R.state.Locked m := by
  induction k with
  | zero => exact (unnoted_idle m).enter (by simp [unnoted, init, Obj.Locked, Mutex.locked])
  | succ k ih =>
    obtain ⟨R, hreach, hidle, hlocked⟩ := ih
    obtain ⟨S, hS, hidle', hopen⟩ := hidle.refuse hlocked
    obtain ⟨T, hT, hidle'', hlocked'⟩ := hidle'.enter hopen
    exact ⟨T, (hreach.trans hS).trans hT, hidle'', hlocked'⟩

/-- Of the calls made the first have entered, and the others have still found
the key open. -/
structure Gathered (m : Method c) (made entered : ℕ) (R : Noted c) : Prop where
  sane : Sane R.state
  idle : R.state.running = none
  issued : R.state.issued m = made
  passed : ∀ n, entered ≤ n → n < made → (R.state.calls (m, n)).phase = .passed
  flying : (R.state.flying m).length = entered
  refused : refusals m R.record = 0

theorem Gathered.wait {made : ℕ} (h : Gathered m made 0 R) (hopen : ¬ R.state.Locked m) :
    ∃ T, Reach (recorded step notes) (unread always) R T ∧ Gathered m (made+1) 0 T ∧
      ¬ T.state.Locked m := by
  obtain ⟨t, htimer, hwaited⟩ := h.sane.waits h.idle m
  obtain rfl := h.issued
  have hfirst : Reach (recorded step notes) (unread always) R
      ⟨R.state.issue m, R.record ++ notes R.state (.call m)⟩ :=
    Reach.single trivial (recorded_step (step_issue h.idle))
  have hreach := hfirst.tail trivial (recorded_step htimer)
  refine ⟨⟨t, R.record⟩, by simpa [notes] using hreach, ?_, ?_⟩
  · refine ⟨hwaited.sane, hwaited.idle, hwaited.issued, ?_, ?_, h.refused⟩
    · intro n _ hn
      by_cases hlast : n = R.state.issued m
      · subst hlast
        rcases waited_cases R.state (m, R.state.issued m) with ⟨-, hpassed⟩ | ⟨hl, -⟩
        · exact hwaited.phase.trans hpassed
        · exact absurd hl hopen
      · show (t.calls (m, n)).phase = .passed
        rw [hwaited.others (m, n) (by simpa using hlast)]
        exact h.passed n (Nat.zero_le n) (by omega)
    · rw [← h.flying]
      exact flying_same h.sane hwaited.sane m fun n => hwaited.flying (m, n)
  · exact fun hl => hopen ((locked_congr (by rw [hwaited.mutex])).mp hl)

theorem Gathered.enter {made entered : ℕ} (h : Gathered m made entered R)
    (hlt : entered < made) :
    ∃ T, Reach (recorded step notes) (unread always) R T ∧ Gathered m made (entered+1) T := by
  have hp := h.passed entered (Nat.le_refl _) hlt
  obtain ⟨t, u, ht, hu, hentered⟩ := h.sane.entered h.idle (m, entered) hp
  have hnotes : notes R.state (.resume (m, entered) (.accepted 0)) = [] := by simp [notes, hp]
  have hnone : notes t .register = [] := rfl
  have hfirst : Reach (recorded step notes) (unread always) R
      ⟨t, R.record ++ notes R.state (.resume (m, entered) (.accepted 0))⟩ :=
    Reach.single trivial (recorded_step ht)
  refine ⟨_, hfirst.tail trivial (recorded_step hu), hentered.sane, hentered.idle, ?_, ?_, ?_, ?_⟩
  · exact (congrFun hentered.issued m).trans h.issued
  · intro n hle hn
    show (u.calls (m, n)).phase = .passed
    rw [hentered.others (m, n) (by simp only [ne_eq, Prod.mk.injEq, true_and]; omega)]
    exact h.passed n (by omega) hn
  · exact hentered.flying.trans (congrArg (·+1) h.flying)
  · simpa only [hnotes, hnone, List.append_nil] using h.refused

theorem reach_gathered (m : Method c) (k : ℕ) :
    ∃ R, Reach (recorded step notes) (unread always) (unnoted c) R ∧ Gathered m k k R := by
  have hwaiting : ∀ k, ∃ R, Reach (recorded step notes) (unread always) (unnoted c) R ∧
      Gathered m k 0 R ∧ ¬ R.state.Locked m := by
    intro k
    induction k with
    | zero =>
      refine ⟨unnoted c, Reach.refl _, ⟨init_sane, rfl, rfl, ?_, rfl, rfl⟩, ?_⟩
      · exact fun n _ hn => absurd hn (Nat.not_lt_zero n)
      · simp [unnoted, init, Obj.Locked, Mutex.locked]
    | succ k ih =>
      obtain ⟨R, hreach, hgathered, hopen⟩ := ih
      obtain ⟨T, hT, hgathered', hopen'⟩ := hgathered.wait hopen
      exact ⟨T, hreach.trans hT, hgathered', hopen'⟩
  have hentering : ∀ j, j ≤ k → ∃ R, Reach (recorded step notes) (unread always) (unnoted c) R ∧
      Gathered m k j R := by
    intro j
    induction j with
    | zero =>
      intro _
      obtain ⟨R, hreach, hgathered, -⟩ := hwaiting k
      exact ⟨R, hreach, hgathered⟩
    | succ j ih =>
      intro hle
      obtain ⟨R, hreach, hgathered⟩ := ih (by omega)
      obtain ⟨T, hT, hgathered'⟩ := hgathered.enter (by omega)
      exact ⟨T, hreach.trans hT, hgathered'⟩
  exact hentering k (Nat.le_refl k)

end Crowding

/-- Where each continuation runs right behind its timer, the calls of a method in
flight are at most one more than the refusals since its last completion event, at
most as many while its key is open, and they can be that many. Where other timers
may run between the two, they can be any number with no refusal at all. -/
theorem overlap_tallied (m : Method c) :
    (∀ R, Reach (recorded step notes) (unread Prompt) (unnoted c) R →
      (R.state.flying m).length ≤ refusals m R.record+if R.state.Locked m then 1 else 0) ∧
    (∀ k, ∃ R, Reach (recorded step notes) (unread Prompt) (unnoted c) R ∧
      (R.state.flying m).length = k+1 ∧ refusals m R.record = k) ∧
    (∀ k, ∃ R, Reach (recorded step notes) (unread always) (unnoted c) R ∧
      (R.state.flying m).length = k ∧ refusals m R.record = 0) := by
  refine ⟨?_, ?_, ?_⟩
  · intro R h
    have htallied : Tallied R := h.invariant unnoted_tallied fun _ _ _ hR ha hs =>
      step_tallied hR ha hs
    exact htallied.tally m
  · intro k
    obtain ⟨R, hreach, hidle, -⟩ := reach_crowded m k
    exact ⟨R, hreach, hidle.flying, hidle.refused⟩
  · intro k
    obtain ⟨R, hreach, hgathered⟩ := reach_gathered m k
    exact ⟨R, hreach, hgathered.flying, hgathered.refused⟩

-- A login in flight, a second that is refused, and a third that gets in.
def refusedLogin : List (Action .AgoraRtmSDK) :=
  [.call .login, .timer (.login, 0), .resume (.login, 0) (.accepted 0), .register, .call .login,
    .timer (.login, 1), .resume (.login, 1) (.accepted 0), .call .login, .timer (.login, 2),
    .resume (.login, 2) (.accepted 0), .register]

theorem overlap_tallied_logins :
    ((final (recorded step notes) (unread Prompt) (unnoted .AgoraRtmSDK) refusedLogin).state.flying
      .login).length ≤ 1+1 :=
  (overlap_tallied .login).1 (final (recorded step notes) (unread Prompt) (unnoted .AgoraRtmSDK)
    refusedLogin) (reach_final rfl)

end AgoraRtm.Adapter
