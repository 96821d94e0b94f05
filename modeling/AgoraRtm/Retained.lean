import AgoraRtm.Delivery
import AgoraRtm.HandlerSafety
import AgoraRtm.ChannelLifecycle

/-!
# Native objects in the hands of the adapter

The constructors of the adapter subscribe to every event of the native object
they wrap, in the turn that made it. So each wrapper has persistent handles
before anything else can run, and none of them is ever given up: no wrapper is
collected, every task finds its handler, and the only releases of a native
channel are those the client asks for.
-/

set_option autoImplicit false

namespace AgoraRtm.Lifetime
open Runs Delivery

/-- What happens to the native objects of a client that has the adapter only. -/
inductive Use where
  | newSDK
  | createChannel (sdk : ℕ) (cname : String) (result : Option ℕ)
  | method (channel : ℕ) (r : Request)
  | drop (w : ℕ)
  | revive (w : ℕ)
  | finalize (w : ℕ)
  | post (handler : ℕ)
  | drain
  | execute
  deriving DecidableEq, Repr

def subscribe (W : World) (subscriptions : List (String × Closure)) : List Action :=
  subscriptions.map fun _ => .onEvent W.wrappers.length true

def turn (W : World) : Use → List Action
  | .newSDK => .newController :: subscribe W sdkSubscriptions
  | .createChannel sdk cname none => [.createChannel sdk cname none]
  | .createChannel sdk cname (some c) =>
    .createChannel sdk cname (some c) :: subscribe W channelSubscriptions
  | .method channel r => [.method channel r]
  | .drop w => [.drop w]
  | .revive w => [.revive w]
  | .finalize w => [.finalize w]
  | .post handler => [.post handler]
  | .drain => [.drain]
  | .execute => [.execute]

def use (W : World) (u : Use) : Option World := run step always W (turn W u)

/-- No wrapper of the channel has been released by the client. -/
def Disciplined (W : World) : Use → Prop
  | .method w r => r.invokes ≠ none →
    ∀ wr ∈ W.wrappers, wr.channel_ = W.channelOf w → wr.released = false
  | _ => True

instance (W : World) (u : Use) : Decidable (Disciplined W u) := by
  unfold Disciplined
  split <;> infer_instance

def Held (W : World) : Prop :=
  ∀ (h : ℕ) (wr : Wrapper), W.wrappers[h]? = some wr → 0 < wr.persistents ∧ wr.destroyed = false

/-- Held but for the newest wrapper, which is there. -/
def HeldBut (w : ℕ) (W : World) : Prop :=
  ∀ (h : ℕ) (wr : Wrapper), W.wrappers[h]? = some wr →
    (h ≠ w → 0 < wr.persistents) ∧ wr.destroyed = false

section Steps

variable {W T : World} {a : Action}

theorem not_collectable {wr : Wrapper} (h : 0 < wr.persistents) : collectable wr = false := by
  simp [collectable, Nat.ne_of_gt h]

theorem change_held {h : ℕ} {wr wr' : Wrapper} (hc : Change a h wr wr')
    (hwr : 0 < wr.persistents ∧ wr.destroyed = false) :
    0 < wr'.persistents ∧ wr'.destroyed = false := by
  refine ⟨Nat.lt_of_lt_of_le hwr.1 (change_persistents hc), ?_⟩
  cases hc with
  | finalized w wr hc =>
    rw [not_collectable hwr.1] at hc
    cases hc
  | _ => exact hwr.2

theorem step_held (h : Held W) (hs : step W a = some T) (hnew : ∀ c, ¬ Creates a c) : Held T := by
  intro x wr hx
  rcases step_follows hs x with hsame | ⟨-, c, -, hcreates⟩ | ⟨wr0, wr', hwr0, hwr', hc⟩
  · exact h x wr (by rw [← hsame, hx])
  · exact absurd hcreates (hnew c)
  · obtain rfl : wr' = wr := by simpa [hwr'] using hx
    exact change_held hc (h x wr0 hwr0)

theorem append_heldBut (h : Held W) {c : Option ℕ} (hT : T.wrappers = W.wrappers ++ [fresh c]) :
    HeldBut W.wrappers.length T := by
  intro x wr hx
  rw [hT] at hx
  rcases Nat.lt_trichotomy x W.wrappers.length with hlt | rfl | hgt
  · rw [List.getElem?_append_left hlt] at hx
    exact ⟨fun _ => (h x wr hx).1, (h x wr hx).2⟩
  · obtain rfl : fresh c = wr := by simpa using hx
    exact ⟨fun hne => absurd rfl hne, rfl⟩
  · rw [List.getElem?_eq_none (by simp; omega)] at hx
    cases hx

theorem onEvent_held {w : ℕ} (h : HeldBut w W) (hs : step W (.onEvent w true) = some T) :
    Held T := by
  cases step_effect hs with
  | registered w isFunction hp =>
    intro x wr hx
    rw [World.onEvent, if_pos rfl, World.update_wrappers, List.getElem?_modify] at hx
    by_cases hw : w = x
    · subst hw
      simp only [↓reduceIte, Option.map_eq_map, Option.map_eq_some_iff] at hx
      obtain ⟨wr0, hwr0, rfl⟩ := hx
      exact ⟨by simp, (h w wr0 hwr0).2⟩
    · have hold : W.wrappers[x]? = some wr := by simpa [hw] using hx
      exact ⟨(h x wr hold).1 (Ne.symm hw), (h x wr hold).2⟩

theorem onEvents_held {β : Type*} (l : List β) {w : ℕ} (h : Held W)
    (hr : run step always W (l.map fun _ => .onEvent w true) = some T) : Held T := by
  apply (reach_of_admitted (P := fun _ a => ∀ c, ¬ Creates a c) hr ?_).invariant h
  · intro V a U hV hnew hs
    exact step_held hV hs hnew
  · intro a ha V c hcreates
    obtain ⟨x, -, rfl⟩ := List.mem_map.mp ha
    cases hcreates

theorem constructed_held {β : Type*} {x : β} {l : List β} {c : Option ℕ} (h : Held W)
    (hstep : ∀ U, step W a = some U → U.wrappers = W.wrappers ++ [fresh c])
    (hr : run step always W (a :: (x :: l).map fun _ => .onEvent W.wrappers.length true) = some T) :
    Held T := by
  obtain ⟨U, -, hU, hr⟩ := run_cons_some hr
  obtain ⟨V, -, hV, hr⟩ := run_cons_some hr
  have hnewest := append_heldBut h (hstep U hU)
  exact onEvents_held l (onEvent_held hnewest hV) hr

theorem run_single (hr : run step always W [a] = some T) : step W a = some T := by
  obtain ⟨U, -, hU, hr⟩ := run_cons_some hr
  obtain rfl : U = T := by simpa [run] using hr
  exact hU

theorem use_held {u : Use} (h : Held W) (hu : use W u = some T) : Held T := by
  cases u with
  | newSDK =>
    apply constructed_held (c := none) h ?_ hu
    intro U hU
    cases hU
    rfl
  | createChannel sdk cname result =>
    cases result with
    | none => exact step_held h (run_single hu) fun c hc => by cases hc
    | some c =>
      apply constructed_held (c := some c) h ?_ hu
      intro U hU
      cases step_effect hU
      rfl
  | _ => exact step_held h (run_single hu) fun c hc => by cases hc

theorem Held.finalize_disabled (h : Held W) (w : ℕ) : step W (.finalize w) = none := by
  cases hs : step W (.finalize w) with
  | none => rfl
  | some T =>
    obtain ⟨wr, hwr, hc, -⟩ := step_finalize hs
    rw [not_collectable (h w wr hwr).1] at hc
    cases hc

theorem Held.not_destroyed (h : Held W) (w : ℕ) : ¬ W.Destroyed w := by
  intro hd
  obtain ⟨wr, hwr, hdestroyed⟩ := (W.is_iff w _).mp hd
  simp [(h w wr hwr).2] at hdestroyed

theorem turn_silent {u : Use} (hu : ∀ w r, u ≠ .method w r) (hf : ∀ w, u ≠ .finalize w) :
    ∀ a ∈ turn W u, ∀ V, invocation V a = none := by
  intro a ha V
  cases u with
  | method w r => exact absurd rfl (hu w r)
  | finalize w => exact absurd rfl (hf w)
  | newSDK =>
    rcases List.mem_cons.mp ha with rfl | ha
    · rfl
    · obtain ⟨x, -, rfl⟩ := List.mem_map.mp ha
      rfl
  | createChannel sdk cname result =>
    cases result with
    | none =>
      obtain rfl := List.mem_singleton.mp ha
      rfl
    | some c =>
      rcases List.mem_cons.mp ha with rfl | ha
      · rfl
      · obtain ⟨x, -, rfl⟩ := List.mem_map.mp ha
        rfl
  | _ =>
    obtain rfl := List.mem_singleton.mp ha
    rfl

theorem turn_unposted {u : Use} (hu : ∀ h, u ≠ .post h) : ∀ a ∈ turn W u, ∀ h, a ≠ .post h := by
  rintro a ha h rfl
  cases u with
  | post h => exact absurd rfl (hu h)
  | newSDK => simp [turn, subscribe] at ha
  | createChannel sdk cname result => cases result <;> simp [turn, subscribe] at ha
  | _ => simp [turn] at ha

theorem use_registered {u : Use} (h : Held W) (hu : use W u = some T) :
    Reach step Registered W T := by
  by_cases hpost : ∃ x, u = .post x
  · obtain ⟨x, rfl⟩ := hpost
    have hs := run_single hu
    apply Reach.single (a := .post x) ?_ hs
    have hlt : x < W.wrappers.length := by
      by_contra hge
      simp [step, hge] at hs
    exact (W.is_iff x _).mpr ⟨W.wrappers[x], by simp [hlt], by
      simpa using (h x _ (List.getElem?_eq_getElem hlt)).1⟩
  · apply reach_of_admitted hu
    intro a ha V
    have hne := turn_unposted (fun x he => hpost ⟨x, he⟩) a ha
    cases a with
    | post x => exact absurd rfl (hne x)
    | _ => trivial

theorem reach_traced (h : Traced W) (hr : Reach step always W T) : Traced T :=
  hr.invariant h fun V a U hV _ hs => step_traced V a U hV hs

theorem reach_log (h : Traced W) (hr : Reach step always W T) (c : ℕ) :
    ∃ rest, T.log c = W.log c ++ rest := by
  have hboth : Traced T ∧ ∃ rest, T.log c = W.log c ++ rest := by
    apply hr.invariant (I := fun V => Traced V ∧ ∃ rest, V.log c = W.log c ++ rest)
      ⟨h, [], (List.append_nil _).symm⟩
    rintro V a U ⟨hV, rest, hrest⟩ - hs
    refine ⟨step_traced V a U hV hs, rest ++ added (invocation V a) c, ?_⟩
    rw [step_log hV.linked hs c, hrest, List.append_assoc]
  exact hboth.2

theorem silent_log {as : List Action} (h : Traced W) (hr : run step always W as = some T)
    (hsilent : ∀ a ∈ as, ∀ V, invocation V a = none) (c : ℕ) : T.log c = W.log c := by
  have hboth : Traced T ∧ T.log c = W.log c := by
    apply (reach_of_admitted (P := fun V a => invocation V a = none) hr hsilent).invariant
      (I := fun V => Traced V ∧ V.log c = W.log c) ⟨h, rfl⟩
    intro V a U hV hnone hs
    refine ⟨step_traced V a U hV.1 hs, ?_⟩
    rw [step_log hV.1.linked hs c, hnone, hV.2]
    exact List.append_nil _
  exact hboth.2

theorem orderly_iff_disciplined (h : Held W) {w : ℕ} {r : Request}
    (hs : step W (.method w r) = some T) :
    Orderly W (.method w r) ↔ Disciplined W (.method w r) := by
  have hended : ∀ c, Ended W c ↔ ∃ wr ∈ W.wrappers, wr.channel_ = some c ∧ wr.released = true := by
    intro c
    constructor
    · rintro ⟨wr, hmem, hc, hflag⟩
      obtain ⟨x, hx⟩ := List.mem_iff_getElem?.mp hmem
      exact ⟨wr, hmem, hc, hflag.resolve_right (by simp [(h x wr hx).2])⟩
    · rintro ⟨wr, hmem, hc, hflag⟩
      exact ⟨wr, hmem, hc, Or.inl hflag⟩
  cases step_effect hs with
  | requested w r hp =>
    obtain ⟨wr, hwr, hflags⟩ := (W.is_iff w _).mp hp
    obtain ⟨c, hc⟩ := Option.isSome_iff_exists.mp (Bool.and_eq_true_iff.mp hflags).2
    have hof : W.channelOf w = some c := by simp [World.channelOf, hwr, hc]
    cases hx : r.invokes with
    | none => simp [Orderly, Disciplined, invocation, hx]
    | some x => simp [Orderly, Disciplined, invocation, hx, hof, hended]

end Steps

structure Intact (W : World) : Prop where
  held : Held W
  traced : Traced W

theorem init_intact : Intact init where
  held h wr hx := by simp [init] at hx
  traced := init_traced

theorem use_intact (W : World) (u : Use) (T : World) (h : Intact W) (hu : use W u = some T) :
    Intact T :=
  ⟨use_held h.held hu, reach_traced h.traced (reach_of_run hu)⟩

theorem disciplined_use_iff (W : World) (u : Use) (T : World) (h : Intact W)
    (hW : ∀ c, OnceReleased (W.log c)) (hu : use W u = some T) :
    (∀ c, OnceReleased (T.log c)) ↔ Disciplined W u := by
  cases u with
  | method w r =>
    have hs := run_single hu
    rw [orderly_step_iff W _ T h.traced hW hs, orderly_iff_disciplined h.held hs]
  | finalize w =>
    have hs := run_single hu
    rw [h.held.finalize_disabled w] at hs
    cases hs
  | _ =>
    have hsame := silent_log h.traced hu (turn_silent (by simp) (by simp))
    simp [hsame, hW, Disciplined]

theorem onceReleased_of_use (W : World) (u : Use) (T : World) (h : Intact W)
    (hu : use W u = some T) (hT : ∀ c, OnceReleased (T.log c)) (c : ℕ) :
    OnceReleased (W.log c) := by
  obtain ⟨rest, hrest⟩ := reach_log h.traced (reach_of_run hu) c
  apply onceReleased_init _ rest
  rw [← hrest]
  exact hT c

/-- Whatever a client of the adapter does, drops and sends, and whenever V8
collects: no wrapper and no handler is ever destroyed, so every task that was or
will be drained finds its handler; and each native channel is released at most
once, and left alone afterwards, just if the client never calls a method on a
channel one of whose objects it has released. -/
theorem adapter_objects_retained (us : List Use) (W : World)
    (h : run use always init us = some W) :
    (∀ w, ¬ W.Destroyed w ∧ step W (.finalize w) = none) ∧
    (∀ U, Reach step Draining W U → Safe U) ∧
    ((∀ c, OnceReleased (W.log c)) ↔ run use Disciplined init us = some W) := by
  have hreach := reach_of_run h
  have hintact : Intact W := hreach.invariant init_intact fun W u T hW _ hu => use_intact W u T hW hu
  refine ⟨?_, ?_, ?_⟩
  · intro w
    exact ⟨hintact.held.not_destroyed w, hintact.held.finalize_disabled w⟩
  · have hregistered : Reach step Registered init W :=
      hreach.refine (I := Intact) (fun W => W) init_intact
        (fun W u T hW _ hu => use_intact W u T hW hu)
        fun W u T hW _ hu => use_registered hW.held hu
    rw [← sound_iff_drains]
    exact (reach_registered hregistered).invariant init_sound fun W a T hW ha hs =>
      (sound_step_iff hW hs).mpr ha
  · apply run_keeps_iff use_intact disciplined_use_iff ?_ h init_intact
    · intro c
      exact ⟨Nat.zero_le 1, by simp [init, World.log]⟩
    · intro W u T hW hlost hu hT
      exact hlost (onceReleased_of_use W u T hW hu hT)

-- Two objects for one name; the first is dropped, the second releases the
-- channel, and a task for the first is still to run.
def namesakesRun : List Use :=
  [.newSDK, .createChannel 0 "room" (some 0), .createChannel 0 "room" (some 0), .method 1 .join,
    .drop 1, .post 1, .method 2 .release]

theorem adapter_objects_retained_namesakes :
    step (final use always init namesakesRun) (.finalize 1) = none ∧
    OnceReleased ((final use always init namesakesRun).log 0) :=
  ⟨((adapter_objects_retained namesakesRun _ rfl).1 1).2,
    (adapter_objects_retained namesakesRun _ rfl).2.2.mpr rfl 0⟩

end AgoraRtm.Lifetime
