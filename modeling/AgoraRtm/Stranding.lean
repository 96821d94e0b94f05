import AgoraRtm.Settling
import AgoraRtm.Hanging

/-!
# Promises that a process leaves pending

Native methods fail in any way here, in a process whose threads interleave freely.
The object's own system remembers what the process does of the failures and of the
events, so what hangs in the one hangs in the other. A promise that hangs is left
where it is until an event of its method is emitted on the object; when the process
comes to rest these are the promises still pending.
-/

set_option autoImplicit false

namespace AgoraRtm.Process
open Runs Adapter NativeEvents Delivery NativeSystem Reception Settlement

variable {c : JsClass}

def marks (o : ℕ) (S : Host c) : Action c → List (Mark c)
  | .js (.resume i (.failed _)) => if (S.obj.calls i).phase = .passed then [.failed i] else []
  | .pipe .immediate =>
    (S.pipe.immediates.head?.toList.filter fun e => e.object = o).map fun e => .emitted e.event
  | _ => []

abbrev Watched (c : JsClass) := Recorded (Host c) (Mark c)

def watch (argv : Emitted → List JsValue) (o : ℕ) : Watched c → Action c → Option (Watched c) :=
  recorded (step argv o) (marks o)

def unwatched (c : JsClass) : Watched c := ⟨init c, []⟩

def own (argv : Emitted → List JsValue) (o : ℕ) (W : Watched c) : NativeSystem.Watched c :=
  ⟨view argv o W.state, W.record⟩

section Records

variable {argv : Emitted → List JsValue} {o : ℕ} {S : Host c} {a : Action c}

theorem Unseen.marks (h : Unseen o S a) : marks o S a = [] := by
  obtain ⟨hjs, himmediate⟩ := h
  cases a with
  | js b => exact absurd rfl (hjs b)
  | answer caller m ans => rfl
  | pipe b =>
    cases b with
    | immediate =>
      cases hi : S.pipe.immediates with
      | nil => simp [Process.marks, hi]
      | cons e rest => simp [Process.marks, hi, himmediate rfl e rest hi]
    | _ => rfl

theorem Seen.marks {b : NativeSystem.Action c} (h : Seen o S a b) :
    NativeSystem.marks (view argv o S) b = marks o S a := by
  cases h with
  | js d =>
    cases d with
    | resume i r => cases r <;> rfl
    | _ => rfl
  | deliver e rest hi ho =>
    have hposted : (view argv o S).posted.head? = some (e.event, argv e) := by
      simp [view, upcoming, hi, noticed_cons, ho]
    simp [NativeSystem.marks, Process.marks, hposted, hi, ho]
  | answer caller m ans => rfl
  | notify caller q n hposting hcarried ho hn => rfl

theorem reach_own {W : Watched c} (hargv : ∀ e n, values (fun _ => none) e = some n → argv e = n.2)
    (h : Reach (watch argv o) (unread Shared) (unwatched c) W) :
    Reach NativeSystem.watch (unread always) (NativeSystem.unwatched c) (own argv o W) := by
  have hall : Reach NativeSystem.watch (unread always) (NativeSystem.unwatched c)
      ⟨view argv o W.state, W.record.filterMap some⟩ := by
    apply h.refine_recorded (I := Linked o) (view argv o) some (init_linked o) step_linked
    intro S a T hS ha hs
    rw [List.filterMap_some]
    rcases step_view hargv hS ha hs with ⟨hsame, hunseen⟩ | ⟨b, hb, hseen⟩
    · exact Or.inl ⟨hsame, hunseen.marks⟩
    · exact Or.inr ⟨b, trivial, hb, hseen.marks⟩
  rw [List.filterMap_some] at hall
  exact hall

theorem hung_step {W T : Watched c}
    (hargv : ∀ e n, values (fun _ => none) e = some n → argv e = n.2)
    (h : Reach (watch argv o) (unread Shared) (unwatched c) W) {i : Id c} (hi : Hung i W.record)
    (ha : Shared W.state a) (hs : watch argv o W a = some T) :
    Hung i T.record ∨ ∃ e rest once, a = .pipe .immediate ∧ W.state.pipe.immediates = e :: rest ∧
      e.object = o ∧ once ∈ i.1.guarded.onces ∧ once.event = e.event ∧
      (T.state.obj.calls i).promise = once.settle.outcome (argv e) := by
  obtain ⟨U, hU, rfl⟩ := recorded_cases hs
  rcases step_view hargv (reach_linked h.unrecorded) ha hU with ⟨-, hunseen⟩ | ⟨b, hb, hseen⟩
  · left
    rw [hunseen.marks, List.append_nil]
    exact hi
  · have hown : NativeSystem.watch (own argv o W) b =
        some (own argv o ⟨U, W.record ++ marks o W.state a⟩) := by
      rw [own, ← hseen.marks]
      exact recorded_step hb
    cases hseen with
    | js d =>
      left
      have hmarks : NativeSystem.marks (view argv o W.state) (.js d) = marks o W.state (.js d) :=
        (Seen.js d).marks
      rw [← hmarks]
      rcases marks_js (view argv o W.state) d with hnil | ⟨j, code, -, -, hmark⟩
      · rw [hnil, List.append_nil]
        exact hi
      · rw [hmark]
        exact (hung_failed W.record j i).mpr (Or.inr hi)
    | deliver e rest himm ho =>
      rcases (reach_underway (reach_own hargv h)).sorted.late hi hown with hhung |
        ⟨n, once, hn, honce, hevent, hsettled⟩
      · exact Or.inl hhung
      · right
        obtain rfl : n = (e.event, argv e) := by
          have hposted : (own argv o W).state.posted.head? = some (e.event, argv e) := by
            simp [own, view, upcoming, himm, noticed_cons, ho]
          rw [hposted] at hn
          exact (Option.some.inj hn).symm
        exact ⟨e, rest, once, rfl, himm, ho, honce, hevent, hsettled⟩
    | answer caller m ans =>
      left
      simpa [marks] using hi
    | notify caller q n hposting hcarried ho hn =>
      left
      simpa [marks] using hi

end Records

/-- Nothing is under way, every event pushed has been emitted, and what is left
pending or locked is what hangs. -/
structure Stranded (issued : Method c → ℕ) (W : Watched c) : Prop where
  promises : ∀ m n, n < issued m →
    ((W.state.obj.calls (m, n)).promise = .pending ↔ Hung (m, n) W.record)
  locked : ∀ m, W.state.obj.Locked m → ∃ n, Hung (m, n) W.record
  answered : ∀ m, W.state.outstanding m = 0
  begun : W.state.begun = []
  emitted : W.state.pipe.emitted = W.state.pipe.queue.pushed.map fun e => e.elem.event

structure Failing (argv : Emitted → List JsValue) (o : ℕ) (issued : Method c → ℕ)
    (W : Watched c) : Prop where
  reached : Reach (watch argv o) (unread Shared) (unwatched c) W
  built : o < W.state.pipe.handlers.length
  issued : W.state.obj.issued = issued

section Failing

variable {argv : Emitted → List JsValue} {o : ℕ} {issued : Method c → ℕ} {W T : Watched c}

theorem step_failing (hargv : ∀ e n, values (fun _ => none) e = some n → argv e = n.2)
    {a : Action c} (h : Failing argv o issued W) (ha : unread Uncalled W a)
    (hs : watch argv o W a = some T) : Failing argv o issued T ∧ work T.state < work W.state := by
  have hreached := h.reached.tail (a := a) (Uncalled.shared ha) hs
  have hsane := (reach_underway (reach_own hargv h.reached)).sorted.sane
  obtain ⟨U, hU, rfl⟩ := recorded_cases hs
  obtain ⟨hissued, hlt⟩ := step_lowers h.reached.unrecorded hsane ha hU
  have hgrow := handlers_grow (Uncalled.shared ha) hU
  exact ⟨⟨hreached, Nat.lt_of_lt_of_le h.built hgrow, hissued.trans h.issued⟩, hlt⟩

theorem Failing.rest (hargv : ∀ e n, values (fun _ => none) e = some n → argv e = n.2)
    (h : Failing argv o issued W) (hrest : AtRest (step argv o) Finishing W.state) :
    Stranded issued W := by
  have hspent := rest_spent h.reached.unrecorded h.built hrest
  have hunderway := reach_underway (reach_own hargv h.reached)
  have hremains := hunderway.still (hunderway.accounted.still hspent.own)
  obtain rfl := h.issued
  exact ⟨hremains.promises, hremains.locked, hspent.answered, hspent.begun, hspent.emitted⟩

end Failing

/-- In a process with any number of objects, one queue and any interleaving of its
threads, where native methods fail in any way: a call that hangs is pending, until
an event of its method is emitted on its object. Once the client makes no more
calls, every way to go on ends within `work` steps, with every event emitted and
just the promises pending that hang. -/
theorem stranded_promises (argv : Emitted → List JsValue)
    (hargv : ∀ e n, values (fun _ => none) e = some n → argv e = n.2) (o : ℕ) (W : Watched c)
    (h : Reach (watch argv o) (unread Shared) (unwatched c) W)
    (ho : o < W.state.pipe.handlers.length) :
    (∀ i, Hung i W.record → (W.state.obj.calls i).promise = .pending ∧
      ∀ a T, Shared W.state a → watch argv o W a = some T → Hung i T.record ∨
        ∃ e rest once, a = .pipe .immediate ∧ W.state.pipe.immediates = e :: rest ∧
          e.object = o ∧ once ∈ i.1.guarded.onces ∧ once.event = e.event ∧
          (T.state.obj.calls i).promise = once.settle.outcome (argv e)) ∧
    (∀ as T, run (watch argv o) (unread Uncalled) W as = some T → as.length ≤ work W.state) ∧
    (∀ T, Reach (watch argv o) (unread Uncalled) W T → AtRest (watch argv o) (unread Uncalled) T →
      Stranded W.state.obj.issued T) ∧
    ∃ as T, run (watch argv o) (unread Uncalled) W as = some T ∧
      Stranded W.state.obj.issued T := by
  have hsorted := (reach_underway (reach_own hargv h)).sorted
  refine ⟨?_, ?_⟩
  · intro i hi
    exact ⟨(hsorted.hung i hi).2, fun a T ha hs => hung_step hargv h hi ha hs⟩
  · apply comes_to_rest (I := Failing argv o W.state.obj.issued) (f := fun U => work U.state)
    · exact fun _ _ _ hU ha hs => step_failing hargv hU ha hs
    · intro T hT hrest
      exact hT.rest hargv fun a ha => recorded_eq_none.mp (hrest a (Or.inl ha))
    · exact ⟨h, ho, rfl⟩

-- A login that fails by its return code beside another object's event, and a
-- logout whose completion is on its way into the queue.
def failedAmongOthers : List (Action .AgoraRtmSDK) :=
  [.pipe (.construct .controller), .pipe (.construct .channel), .js (.call .login),
    .js (.timer (.login, 0)), .js (.resume (.login, 0) (.failed (-1))), .js .register,
    .pipe (.callback (.producer 1) 1 (fun _ => none) (.channel .onJoinSuccess)),
    .js (.call .logout), .js (.timer (.logout, 0)), .js (.resume (.logout, 0) (.accepted 0)),
    .answer (.producer 0) .logout .success, .pipe (.queue (.enter (.producer 1))),
    .js .register, .pipe (.queue (.push (.producer 1))), .pipe (.queue (.enter (.producer 0)))]

def loginStranded : Watched .AgoraRtmSDK :=
  final (watch ownArgs 0) (unread Shared) (unwatched .AgoraRtmSDK) failedAmongOthers

theorem stranded_promises_login :
    (loginStranded.state.obj.calls (.login, 0)).promise = .pending ∧
    ∃ as T, run (watch ownArgs 0) (unread Uncalled) loginStranded as = some T ∧
      Stranded loginStranded.state.obj.issued T :=
  have h := stranded_promises ownArgs (fun e n h => by simp [ownArgs, h]) 0 loginStranded
    (reach_final rfl) (by decide)
  ⟨(h.1 (.login, 0) ⟨[], _, [], rfl, rfl, by simp⟩).1, h.2.2.2⟩

end AgoraRtm.Process
