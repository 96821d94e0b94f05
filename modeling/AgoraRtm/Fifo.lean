import AgoraRtm.Runs
import Mathlib.Data.List.Perm.Basic
import Mathlib.Data.List.Sublists

/-!
# A first-in first-out channel with labelled losses

The specification of a queue: values are sent to the back and leave from the
front, either received or dropped for a stated reason. Where nothing was
dropped, what was received is the beginning of what was sent.
-/

set_option autoImplicit false

namespace Fifo
open Runs

variable {α ρ : Type*}

structure State (α ρ : Type*) where
  sent : List α
  held : List α
  received : List α
  dropped : List (ρ × α)

inductive Action (α ρ : Type*)
  | send (a : α)
  | receive
  | drop (why : ρ)

def empty : State α ρ := ⟨[], [], [], []⟩

def step (s : State α ρ) : Action α ρ → Option (State α ρ)
  | .send a => some { s with sent := s.sent ++ [a], held := s.held ++ [a] }
  | .receive =>
    match s.held with
    | [] => none
    | a :: rest => some { s with held := rest, received := s.received ++ [a] }
  | .drop why =>
    match s.held with
    | [] => none
    | a :: rest => some { s with held := rest, dropped := s.dropped ++ [(why, a)] }

theorem step_cases {s t : State α ρ} {a : Action α ρ} (h : step s a = some t) :
    (∃ x, a = .send x ∧ t = { s with sent := s.sent ++ [x], held := s.held ++ [x] }) ∨
    (∃ x rest, a = .receive ∧ s.held = x :: rest ∧
      t = { s with held := rest, received := s.received ++ [x] }) ∨
    ∃ why x rest, a = .drop why ∧ s.held = x :: rest ∧
      t = { s with held := rest, dropped := s.dropped ++ [(why, x)] } := by
  cases a with
  | send x => exact Or.inl ⟨x, rfl, (Option.some.inj h).symm⟩
  | receive =>
    simp only [step] at h
    split at h
    · cases h
    · rename_i x rest hq
      exact Or.inr (Or.inl ⟨x, rest, rfl, hq, (Option.some.inj h).symm⟩)
  | drop why =>
    simp only [step] at h
    split at h
    · cases h
    · rename_i x rest hq
      exact Or.inr (Or.inr ⟨why, x, rest, rfl, hq, (Option.some.inj h).symm⟩)

structure Sound (s : State α ρ) : Prop where
  conserved : (s.received ++ s.dropped.map Prod.snd ++ s.held).Perm s.sent
  ordered : (s.received ++ s.held).Sublist s.sent

theorem empty_sound : Sound (empty : State α ρ) := ⟨List.Perm.refl _, List.Sublist.refl _⟩

theorem step_sound (s : State α ρ) (a : Action α ρ) (t : State α ρ) (hs : Sound s)
    (h : step s a = some t) : Sound t := by
  obtain ⟨hc, ho⟩ := hs
  rcases step_cases h with ⟨x, -, rfl⟩ | ⟨x, rest, -, hq, rfl⟩ | ⟨why, x, rest, -, hq, rfl⟩
  · constructor
    · simpa using hc.append_right [x]
    · simpa using ho.append (List.Sublist.refl [x])
  · rw [hq] at hc ho
    constructor
    · have hm : (x :: (s.dropped.map Prod.snd ++ rest)).Perm
          (s.dropped.map Prod.snd ++ x :: rest) := List.perm_middle.symm
      refine List.Perm.trans ?_ hc
      simpa [List.append_assoc] using hm.append_left s.received
    · simpa using ho
  · rw [hq] at hc ho
    constructor
    · simpa [List.append_assoc] using hc
    · exact (List.Sublist.append_left (List.sublist_cons_self x rest) _).trans ho

theorem reach_sound {s : State α ρ} (h : Reach step always empty s) : Sound s :=
  h.invariant empty_sound fun s a t hs _ hst => step_sound s a t hs hst

theorem step_recent (s : State α ρ) (a : Action α ρ) (t : State α ρ) (hs : s.held <:+ s.sent)
    (h : step s a = some t) : t.held <:+ t.sent := by
  rcases step_cases h with ⟨x, -, rfl⟩ | ⟨x, rest, -, hq, rfl⟩ | ⟨why, x, rest, -, hq, rfl⟩
  · obtain ⟨before, hbefore⟩ := hs
    exact ⟨before, by rw [← List.append_assoc, hbefore]⟩
  · rw [hq] at hs
    exact (List.suffix_cons x rest).trans hs
  · rw [hq] at hs
    exact (List.suffix_cons x rest).trans hs

theorem reach_recent {s : State α ρ} (h : Reach step always empty s) : s.held <:+ s.sent :=
  h.invariant (List.suffix_refl _) fun s a t hs _ hst => step_recent s a t hs hst

/-- Exactly-once in-order delivery: where nothing was dropped, the received
values followed by the held ones are the sent ones. -/
theorem lossless_exact {s : State α ρ} (hs : Sound s) (hd : s.dropped = []) :
    s.received ++ s.held = s.sent := by
  have hlen := hs.conserved.length_eq
  simp only [hd, List.map_nil, List.append_nil] at hlen
  exact hs.ordered.eq_of_length hlen

theorem reach_drop_all (why : ρ) (held : List α) (s : State α ρ) (hs : s.held = held) :
    Reach step always s { s with held := [], dropped := s.dropped ++ held.map (why, ·) } := by
  induction held generalizing s with
  | nil =>
    have he : { s with held := [], dropped := s.dropped ++ ([] : List α).map (why, ·) } = s := by
      cases s; simp_all
    rw [he]
    exact Reach.refl s
  | cons a rest ih =>
    have hstep : step s (.drop why) =
        some { s with held := rest, dropped := s.dropped ++ [(why, a)] } := by
      simp [step, hs]
    refine (Reach.single trivial hstep).trans ?_
    simpa [List.append_assoc] using
      ih { s with held := rest, dropped := s.dropped ++ [(why, a)] } rfl

end Fifo
