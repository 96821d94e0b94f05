import AgoraRtm.Runs
import Mathlib.Data.Nat.Notation

/-!
# Runs that keep a record

A machine with a record notes at each step what was observed of it. The record
reads nothing back into the machine, so its runs are those of the machine. What
has happened since is read off the record: an event of one kind that no event of
another kind follows.
-/

set_option autoImplicit false

namespace Runs

variable {S A E : Type*}

/-- One of the first events has happened and none of the second after it. -/
def Since (happens resets : E → Prop) (record : List E) : Prop :=
  ∃ before x after, record = before ++ x :: after ∧ happens x ∧ ∀ y ∈ after, ¬ resets y

section Since

variable {happens resets : E → Prop}

theorem not_since_nil : ¬ Since happens resets [] := by
  rintro ⟨before, x, after, h, -⟩
  simp at h

theorem since_concat (record : List E) (x : E) :
    Since happens resets (record ++ [x]) ↔
      happens x ∨ Since happens resets record ∧ ¬ resets x := by
  constructor
  · rintro ⟨before, y, after, h, hy, hafter⟩
    rcases List.eq_nil_or_concat after with rfl | ⟨rest, z, rfl⟩
    · left
      obtain ⟨-, rfl⟩ := List.append_singleton_inj.mp h
      exact hy
    · right
      rw [List.concat_eq_append] at h hafter
      have hsplit : record ++ [x] = (before ++ y :: rest) ++ [z] := by simp [h]
      obtain ⟨rfl, rfl⟩ := List.append_singleton_inj.mp hsplit
      exact ⟨⟨before, y, rest, rfl, hy, fun w hw => hafter w (by simp [hw])⟩,
        hafter x (by simp)⟩
  · rintro (hx | ⟨⟨before, y, after, rfl, hy, hafter⟩, hx⟩)
    · exact ⟨record, x, [], rfl, hx, by simp⟩
    · refine ⟨before, y, after ++ [x], by simp, hy, ?_⟩
      intro w hw
      rcases List.mem_append.mp hw with hw | hw
      · exact hafter w hw
      · rwa [List.mem_singleton.mp hw]

end Since

def countSince (happens resets : E → Prop) [DecidablePred happens] [DecidablePred resets]
    (record : List E) : ℕ :=
  record.foldl (fun n x => if resets x then 0 else if happens x then n+1 else n) 0

theorem countSince_concat (happens resets : E → Prop) [DecidablePred happens]
    [DecidablePred resets] (record : List E) (x : E) :
    countSince happens resets (record ++ [x]) = if resets x then 0 else
      if happens x then countSince happens resets record+1
      else countSince happens resets record := by
  rw [countSince, List.foldl_append]
  rfl

/-- A state and the record of the run that led to it. -/
structure Recorded (S E : Type*) where
  state : S
  record : List E

def recorded (step : S → A → Option S) (notes : S → A → List E) (R : Recorded S E) (a : A) :
    Option (Recorded S E) :=
  (step R.state a).map fun t => ⟨t, R.record ++ notes R.state a⟩

def unread (ok : S → A → Prop) (R : Recorded S E) (a : A) : Prop := ok R.state a

instance (ok : S → A → Prop) [h : ∀ s a, Decidable (ok s a)] (R : Recorded S E) (a : A) :
    Decidable (unread ok R a) := h R.state a

variable {step : S → A → Option S} {notes : S → A → List E} {ok : S → A → Prop}

theorem recorded_cases {R T : Recorded S E} {a : A} (h : recorded step notes R a = some T) :
    ∃ t, step R.state a = some t ∧ T = ⟨t, R.record ++ notes R.state a⟩ := by
  obtain ⟨t, ht, rfl⟩ := Option.map_eq_some_iff.mp h
  exact ⟨t, ht, rfl⟩

theorem recorded_step {R : Recorded S E} {a : A} {t : S} (h : step R.state a = some t) :
    recorded step notes R a = some ⟨t, R.record ++ notes R.state a⟩ := by
  rw [recorded, h, Option.map_some]

theorem recorded_eq_none {R : Recorded S E} {a : A} :
    recorded step notes R a = none ↔ step R.state a = none :=
  Option.map_eq_none_iff

theorem Reach.unrecorded {R T : Recorded S E} (h : Reach (recorded step notes) (unread ok) R T) :
    Reach step ok R.state T.state := by
  apply h.invariant (Reach.refl R.state)
  intro U a V hU ha hs
  obtain ⟨t, ht, rfl⟩ := recorded_cases hs
  exact hU.tail ha ht

/-- Where a machine goes through another's steps, and notes what that one notes
among other things, its record read for that one's is that one's record. -/
theorem Reach.refine_recorded {T B E' : Type*} {stepT : T → B → Option T} {okT : T → B → Prop}
    {notesT : T → B → List E'} {I : S → Prop} (f : S → T) (g : E → Option E') {R W : Recorded S E}
    (h : Reach (recorded step notes) (unread ok) R W) (h0 : I R.state)
    (hinv : ∀ s a t, I s → ok s a → step s a = some t → I t)
    (hsim : ∀ s a t, I s → ok s a → step s a = some t →
      f t = f s ∧ (notes s a).filterMap g = [] ∨
      ∃ b, okT (f s) b ∧ stepT (f s) b = some (f t) ∧ notesT (f s) b = (notes s a).filterMap g) :
    Reach (recorded stepT notesT) (unread okT) ⟨f R.state, R.record.filterMap g⟩
      ⟨f W.state, W.record.filterMap g⟩ := by
  apply h.refine (I := fun U => I U.state)
    (fun U => (⟨f U.state, U.record.filterMap g⟩ : Recorded T E')) h0
  · intro U a V hU ha hs
    obtain ⟨t, ht, rfl⟩ := recorded_cases hs
    exact hinv U.state a t hU ha ht
  · intro U a V hU ha hs
    obtain ⟨t, ht, rfl⟩ := recorded_cases hs
    rw [List.filterMap_append]
    rcases hsim U.state a t hU ha ht with ⟨hsame, hnone⟩ | ⟨b, hb, hstep, hnotes⟩
    · rw [hsame, hnone, List.append_nil]
      exact Reach.refl _
    · have hown : unread okT (⟨f U.state, U.record.filterMap g⟩ : Recorded T E') b := hb
      apply Reach.single hown
      rw [recorded_step hstep, hnotes]

end Runs
