import AgoraRtm.Quiescence
import AgoraRtm.Histories

/-!
# Which promises hang

A native method that fails by its return code leaves a promise that no event of
its own will settle. Its listeners stay on the emitter, though, so the completion
of a later call of the method settles it too. What hangs in the end is told by
the run: the calls that have failed so and have seen no completion event since.
-/

set_option autoImplicit false

namespace AgoraRtm.NativeSystem
open Runs Adapter NativeEvents

variable {c : JsClass}

/-- What a run is remembered by: the native calls that failed by return code, and
the events emitted. -/
inductive Mark (c : JsClass) where
  | failed (i : Id c)
  | emitted (event : String)

def marks (S : System c) : Action c → List (Mark c)
  | .js (.resume i (.failed _)) => if (S.obj.calls i).phase = .passed then [.failed i] else []
  | .deliver => S.posted.head?.toList.map fun n => .emitted n.1
  | _ => []

abbrev Watched (c : JsClass) := Recorded (System c) (Mark c)

def watch : Watched c → Action c → Option (Watched c) := recorded step marks

def unwatched (c : JsClass) : Watched c := ⟨init c, []⟩

def Mark.Completes (m : Method c) : Mark c → Prop
  | .emitted event => m.Completes event
  | .failed _ => False

/-- The native method failed by its return code, and no completion event of the
method has been emitted since. -/
def Hung (i : Id c) : List (Mark c) → Prop := Since (· = .failed i) (Mark.Completes i.1)

theorem hung_failed (record : List (Mark c)) (i j : Id c) :
    Hung j (record ++ [.failed i]) ↔ j = i ∨ Hung j record := by
  rw [Hung, since_concat]
  simp [Mark.Completes, eq_comm]

theorem hung_emitted (record : List (Mark c)) (event : String) (j : Id c) :
    Hung j (record ++ [.emitted event]) ↔ Hung j record ∧ ¬ j.1.Completes event := by
  rw [Hung, since_concat]
  simp [Mark.Completes]

theorem marks_js (S : System c) (b : Adapter.Action c) :
    marks S (.js b) = [] ∨ ∃ i code, b = .resume i (.failed code) ∧
      (S.obj.calls i).phase = .passed ∧ marks S (.js b) = [.failed i] := by
  cases b with
  | resume i r =>
    cases r with
    | failed code =>
      by_cases hp : (S.obj.calls i).phase = .passed
      · exact Or.inr ⟨i, code, rfl, hp, if_pos hp⟩
      · exact Or.inl (if_neg hp)
    | _ => exact Or.inl rfl
  | _ => exact Or.inl rfl

/-- A call in flight hangs or has its completion to come, and one that hangs is in
flight. -/
structure Sorted (W : Watched c) : Prop where
  sane : Sane W.state.obj
  hung : ∀ i, Hung i W.record → W.state.obj.InFlight i
  due : ∀ i, W.state.obj.InFlight i → Hung i W.record ∨ 0 < W.state.outstanding i.1 ∨
    ∃ n ∈ W.state.posted, i.1.Completes n.1

theorem unwatched_sorted : Sorted (unwatched c) where
  sane := init_sane
  hung _ h := absurd h not_since_nil
  due _ h := absurd h.1 (Nat.lt_irrefl 0)

section Steps

variable {W T : Watched c}

theorem Sorted.aside (h : Sorted W) {b : Adapter.Action c} {t : Obj c} (ht : Sane t)
    (hfly : ∀ j, t.InFlight j ↔ W.state.obj.InFlight j) :
    Sorted ⟨{ W.state with obj := t, outstanding := launched W.state b }, W.record⟩ := by
  refine ⟨ht, fun j hj => (hfly j).mpr (h.hung j hj), ?_⟩
  intro j hj
  have hle := launched_le W.state b j.1
  rcases h.due j ((hfly j).mp hj) with hhung | hout | hqueued
  · exact Or.inl hhung
  · exact Or.inr (Or.inl (Nat.lt_of_lt_of_le hout hle))
  · exact Or.inr (Or.inr hqueued)

theorem Sorted.enters (h : Sorted W) {i : Id c} {r : Native} {t : Obj c} (ht : Sane t)
    (hent : W.state.obj.Enters i r)
    (hfly : ∀ j, t.InFlight j ↔ j = i ∨ W.state.obj.InFlight j) :
    Sorted ⟨{ W.state with obj := t, outstanding := launched W.state (.resume i r) },
      W.record ++ marks W.state (.js (.resume i r))⟩ := by
  cases r with
  | threw err => cases hent.2
  | failed code =>
    have hmarks : marks W.state (.js (.resume i (.failed code))) = [.failed i] := if_pos hent.1
    have hout : launched W.state (.resume i (.failed code)) = W.state.outstanding := by
      simp [launched, accepts]
    rw [hmarks, hout]
    refine ⟨ht, ?_, ?_⟩
    · intro j hj
      rcases (hung_failed W.record i j).mp hj with rfl | hhung
      · exact (hfly j).mpr (Or.inl rfl)
      · exact (hfly j).mpr (Or.inr (h.hung j hhung))
    · intro j hj
      rcases (hfly j).mp hj with rfl | hold
      · exact Or.inl ((hung_failed W.record j j).mpr (Or.inl rfl))
      · rcases h.due j hold with hhung | hdue
        · exact Or.inl ((hung_failed W.record i j).mpr (Or.inr hhung))
        · exact Or.inr hdue
  | accepted code =>
    have hmarks : marks W.state (.js (.resume i (.accepted code))) = [] := rfl
    rw [hmarks, List.append_nil]
    refine ⟨ht, fun j hj => (hfly j).mpr (Or.inr (h.hung j hj)), ?_⟩
    intro j hj
    have hle := launched_le W.state (.resume i (.accepted code)) j.1
    rcases (hfly j).mp hj with rfl | hold
    · right; left
      simp [launched, hent.1, accepts]
    · rcases h.due j hold with hhung | hout | hqueued
      · exact Or.inl hhung
      · exact Or.inr (Or.inl (Nat.lt_of_lt_of_le hout hle))
      · exact Or.inr (Or.inr hqueued)

theorem Sorted.turn (h : Sorted W) {b : Adapter.Action c} {t : Obj c}
    (hne : ∀ event args, b ≠ .emit event args) (ht : Adapter.step W.state.obj b = some t) :
    Sorted ⟨{ W.state with obj := t, outstanding := launched W.state b },
      W.record ++ marks W.state (.js b)⟩ := by
  have hsane := step_sane W.state.obj b t h.sane ht
  by_cases hent : ∃ i r, b = .resume i r ∧ W.state.obj.Enters i r
  · obtain ⟨i, r, rfl, hent⟩ := hent
    rcases h.sane.resume_effect i r (step_resume ht).2 with ⟨hnot, -⟩ | ⟨-, hfly, -⟩
    · exact absurd hent hnot
    · exact h.enters hsane hent hfly
  · have hmarks : marks W.state (.js b) = [] := by
      rcases marks_js W.state b with hnil | ⟨i, code, rfl, hp, -⟩
      · exact hnil
      · exact absurd ⟨i, _, rfl, hp, rfl⟩ hent
    rw [hmarks, List.append_nil]
    rcases h.sane.step_cases ht with ⟨hfly, -⟩ | ⟨i, r, rfl, -, hres⟩ | ⟨event, args, rfl, -⟩
    · exact h.aside hsane hfly
    · rcases h.sane.resume_effect i r hres with ⟨-, hfly, -⟩ | ⟨hin, -⟩
      · exact h.aside hsane hfly
      · exact absurd ⟨i, r, rfl, hin⟩ hent
    · exact absurd rfl (hne event args)

theorem step_sorted {a : Action c} (h : Sorted W) (hs : watch W a = some T) : Sorted T := by
  obtain ⟨S, hstep, rfl⟩ := recorded_cases hs
  rcases step_cases hstep with ⟨b, t, rfl, hne, ht, rfl⟩ | ⟨m, ans, n, rfl, hpos, hn, rfl⟩ |
    ⟨n, rfl, rfl⟩ | ⟨n, rest, rfl, hposted, hrun, rfl⟩
  · exact h.turn hne ht
  · have hmarks : marks W.state (.answer m ans) = [] := rfl
    rw [hmarks, List.append_nil]
    refine ⟨h.sane, h.hung, ?_⟩
    intro j hj
    by_cases hm : j.1 = m
    · right; right
      exact ⟨n, by simp [answered], hm ▸ completion_completes m ans n hn⟩
    · rcases h.due j hj with hhung | hout | ⟨e, he, hce⟩
      · exact Or.inl hhung
      · exact Or.inr (Or.inl (by simpa [answered, hm] using hout))
      · exact Or.inr (Or.inr ⟨e, by simp [answered, he], hce⟩)
  · have hmarks : marks W.state (.notify n) = [] := rfl
    rw [hmarks, List.append_nil]
    refine ⟨h.sane, h.hung, ?_⟩
    intro j hj
    rcases h.due j hj with hhung | hout | ⟨e, he, hce⟩
    · exact Or.inl hhung
    · exact Or.inr (Or.inl hout)
    · exact Or.inr (Or.inr ⟨e, by simp [he], hce⟩)
  · have hmarks : marks W.state .deliver = [.emitted n.1] := by simp [marks, hposted]
    rw [hmarks]
    have hfly := h.sane.emit_inFlight hrun n.1 n.2
    refine ⟨h.sane.emit hrun n.1 n.2, ?_, ?_⟩
    · intro j hj
      obtain ⟨hhung, hnot⟩ := (hung_emitted W.record n.1 j).mp hj
      exact (hfly j).mpr ⟨hnot, h.hung j hhung⟩
    · intro j hj
      obtain ⟨hnot, hold⟩ := (hfly j).mp hj
      rcases h.due j hold with hhung | hout | ⟨e, he, hce⟩
      · exact Or.inl ((hung_emitted W.record n.1 j).mpr ⟨hhung, hnot⟩)
      · exact Or.inr (Or.inl hout)
      · rw [hposted] at he
        rcases List.mem_cons.mp he with rfl | hrest
        · exact absurd hce hnot
        · exact Or.inr (Or.inr ⟨e, hrest, hce⟩)

theorem Sorted.late (h : Sorted W) {i : Id c} (hi : Hung i W.record)
    (hs : watch W .deliver = some T) : Hung i T.record ∨ ∃ n o, W.state.posted.head? = some n ∧
      o ∈ i.1.guarded.onces ∧ o.event = n.1 ∧
      (T.state.obj.calls i).promise = o.settle.outcome n.2 := by
  obtain ⟨S, hstep, rfl⟩ := recorded_cases hs
  rcases step_cases hstep with ⟨b, t, ha, -⟩ | ⟨m, ans, n, ha, -⟩ | ⟨n, ha, -⟩ |
    ⟨n, rest, -, hposted, hrun, rfl⟩
  · cases ha
  · cases ha
  · cases ha
  · have hmarks : marks W.state .deliver = [.emitted n.1] := by simp [marks, hposted]
    by_cases hcomp : i.1.Completes n.1
    · right
      obtain ⟨o, ho, he⟩ := hcomp
      have hset := h.sane.emit_completes hrun n.1 n.2 i o ho he (h.hung i hi)
      exact ⟨n, o, by rw [hposted]; rfl, ho, he, hset.1⟩
    · left
      rw [hmarks]
      exact (hung_emitted W.record n.1 i).mpr ⟨hi, hcomp⟩

end Steps

structure Underway (issued : Method c → ℕ) (W : Watched c) : Prop where
  sorted : Sorted W
  accounted : Accounted W.state.obj
  issued : W.state.obj.issued = issued

/-- Nothing is under way, and what is left pending or locked is what hangs. -/
structure Remains (issued : Method c → ℕ) (W : Watched c) : Prop where
  promises : ∀ m n, n < issued m →
    ((W.state.obj.calls (m, n)).promise = .pending ↔ Hung (m, n) W.record)
  locked : ∀ m, W.state.obj.Locked m → ∃ n, Hung (m, n) W.record
  answered : ∀ m, W.state.outstanding m = 0
  delivered : W.state.posted = []

theorem step_underway {issued : Method c → ℕ} {W T : Watched c} {a : Action c}
    (h : Underway issued W) (ha : unread Uncalled W a) (hs : watch W a = some T) :
    Underway issued T ∧ work T.state < work W.state := by
  have hsorted := step_sorted h.sorted hs
  obtain ⟨S, hstep, rfl⟩ := recorded_cases hs
  obtain ⟨hissued, hlt⟩ := uncalled_lowers h.sorted.sane ha hstep
  have haccounted := step_obj_accounted h.sorted.sane h.accounted hstep
  exact ⟨⟨hsorted, haccounted, hissued.trans h.issued⟩, hlt⟩

theorem Underway.still {issued : Method c → ℕ} {W : Watched c} (h : Underway issued W)
    (hstill : Still W.state) : Remains issued W := by
  have hhung : ∀ i, W.state.obj.InFlight i → Hung i W.record := by
    intro i hi
    rcases h.sorted.due i hi with hhung | hout | ⟨n, hn, -⟩
    · exact hhung
    · rw [hstill.answered] at hout
      exact absurd hout (Nat.lt_irrefl 0)
    · rw [hstill.delivered] at hn
      cases hn
  refine ⟨?_, ?_, hstill.answered, hstill.delivered⟩
  · intro m n hn
    refine ⟨fun hp => ?_, fun hin => (h.sorted.hung (m, n) hin).2⟩
    have hdone := hstill.done (m, n) (by rw [h.issued]; exact hn)
    rcases h.accounted.ended (m, n) hdone with hfly | hsettled
    · exact hhung (m, n) hfly
    · exact absurd hp hsettled
  · intro m hm
    obtain ⟨n, hn⟩ := h.sorted.sane.locked m hm
    exact ⟨n, hhung (m, n) hn⟩

theorem Underway.rest {issued : Method c → ℕ} {W : Watched c} (h : Underway issued W)
    (hrest : AtRest watch (unread Uncalled) W) : Remains issued W :=
  h.still (h.accounted.still fun a ha => recorded_eq_none.mp (hrest a ha.uncalled))

theorem reach_underway {W : Watched c} (h : Reach watch (unread always) (unwatched c) W) :
    Underway W.state.obj.issued W where
  sorted := h.invariant unwatched_sorted fun _ _ _ hW _ hs => step_sorted hW hs
  accounted := reach_accounted h.unrecorded
  issued := rfl

/-- Native methods may fail in any way, at any time. A call that hangs is pending,
until the event of another call of its method settles it. Once the client makes
no more calls, every way to go on ends within `work` steps, and it ends with just
the promises pending that hang; a key is left locked only if one of its calls
hangs. -/
theorem hung_promises (W : Watched c) (h : Reach watch (unread always) (unwatched c) W) :
    (∀ i, Hung i W.record → (W.state.obj.calls i).promise = .pending ∧
      ∀ T, watch W .deliver = some T → Hung i T.record ∨
        ∃ n o, W.state.posted.head? = some n ∧ o ∈ i.1.guarded.onces ∧ o.event = n.1 ∧
          (T.state.obj.calls i).promise = o.settle.outcome n.2) ∧
    (∀ as T, run watch (unread Uncalled) W as = some T → as.length ≤ work W.state) ∧
    (∀ T, Reach watch (unread Uncalled) W T → AtRest watch (unread Uncalled) T →
      Remains W.state.obj.issued T) ∧
    ∃ as T, run watch (unread Uncalled) W as = some T ∧ Remains W.state.obj.issued T := by
  have hunderway := reach_underway h
  have hsorted := hunderway.sorted
  refine ⟨fun i hi => ⟨(hsorted.hung i hi).2, fun T hs => hsorted.late hi hs⟩, ?_⟩
  exact comes_to_rest (I := Underway W.state.obj.issued) (f := fun U => work U.state)
    (fun _ _ _ hU ha hs => step_underway hU ha hs) (fun _ hU hrest => hU.rest hrest) W hunderway

-- A login that fails by its return code, and a logout that the native side has
-- accepted.
def failedLogin : List (Action .AgoraRtmSDK) :=
  [.js (.call .login), .js (.timer (.login, 0)), .js (.resume (.login, 0) (.failed (-1))),
    .js .register, .js (.call .logout), .js (.timer (.logout, 0)),
    .js (.resume (.logout, 0) (.accepted 0))]

def loginFailed : Watched .AgoraRtmSDK :=
  final watch (unread always) (unwatched .AgoraRtmSDK) failedLogin

theorem hung_promises_login :
    (loginFailed.state.obj.calls (.login, 0)).promise = .pending ∧
    ∃ as T, run watch (unread Uncalled) loginFailed as = some T ∧
      Remains loginFailed.state.obj.issued T :=
  ⟨((hung_promises loginFailed (reach_final rfl)).1 (.login, 0) ⟨[], _, [], rfl, rfl, by simp⟩).1,
    (hung_promises loginFailed (reach_final rfl)).2.2.2⟩

end AgoraRtm.NativeSystem
