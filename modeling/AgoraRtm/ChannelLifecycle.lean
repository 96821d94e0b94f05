import AgoraRtm.Lifetime

/-!
# The life of a native channel

Two wrappers made for one identifier hold the same `IChannel`. `release` leaves
the pointer in the wrapper, and the destructor of every wrapper releases what
its pointer points to. So a channel ends when the first of its wrappers is
released or collected, and each later use of any of them comes too late.
-/

set_option autoImplicit false

namespace AgoraRtm.Lifetime
open Runs

def World.log (W : World) (c : ℕ) : List NativeMethod :=
  ((W.channels[c]?).map IChannel.log).getD []

/-- Released at most once, and not used afterwards. -/
def OnceReleased (log : List NativeMethod) : Prop :=
  log.count .release ≤ 1 ∧
    ∀ before after, log = before ++ NativeMethod.release :: after → after = []

def invocation (W : World) : Action → Option (ℕ × NativeMethod)
  | .method w r => r.invokes.bind fun x => (W.channelOf w).map fun c => (c, x)
  | .finalize w => (W.channelOf w).map fun c => (c, .release)
  | _ => none

def Ended (W : World) (c : ℕ) : Prop :=
  ∃ wr ∈ W.wrappers, wr.channel_ = some c ∧ (wr.released = true ∨ wr.destroyed = true)

instance (W : World) (c : ℕ) : Decidable (Ended W c) :=
  inferInstanceAs (Decidable (∃ wr ∈ W.wrappers, _ ∧ _))

/-- Once a wrapper of a channel has been released or collected, no wrapper of
the channel invokes it any more. -/
def Orderly (W : World) (a : Action) : Prop := ∀ p ∈ invocation W a, ¬ Ended W p.1

instance (W : World) (a : Action) : Decidable (Orderly W a) := by
  unfold Orderly
  infer_instance

theorem onceReleased_snoc (log : List NativeMethod) (x : NativeMethod) (h : OnceReleased log) :
    OnceReleased (log ++ [x]) ↔ .release ∉ log := by
  constructor
  · intro hx hmem
    obtain ⟨before, after, rfl⟩ := List.append_of_mem hmem
    have hnil := hx.2 before (after ++ [x]) (by simp)
    simp at hnil
  · intro hnot
    constructor
    · rw [List.count_append, List.count_eq_zero_of_not_mem hnot]
      have hle := List.count_le_length (a := NativeMethod.release) (l := [x])
      simpa using hle
    · intro before after heq
      rcases List.eq_nil_or_concat after with rfl | ⟨rest, y, rfl⟩
      · rfl
      · exfalso
        have hcut : log ++ [x] = (before ++ .release :: rest) ++ [y] := by simp [heq]
        have hlog := (List.append_inj' hcut rfl).1
        exact hnot (by simp [hlog])

theorem onceReleased_init (log rest : List NativeMethod) (h : OnceReleased (log ++ rest)) :
    OnceReleased log := by
  constructor
  · have hle := h.1
    rw [List.count_append] at hle
    omega
  · intro before after heq
    have hnil := h.2 before (after ++ rest) (by simp [heq])
    exact (List.append_eq_nil_iff.mp hnil).1

def Linked (W : World) : Prop :=
  ∀ wr ∈ W.wrappers, ∀ c, wr.channel_ = some c → c < W.channels.length

def added (p : Option (ℕ × NativeMethod)) (c : ℕ) : List NativeMethod :=
  match p with
  | some (d, x) => if d = c then [x] else []
  | none => []

section Steps

variable {W T : World} {a : Action}

theorem channelOf_lt (hl : Linked W) (w c : ℕ) (h : W.channelOf w = some c) :
    c < W.channels.length := by
  obtain ⟨wr, hwr, hc⟩ := Option.bind_eq_some_iff.mp h
  exact hl wr (List.mem_of_getElem? hwr) c hc

theorem invoke_log (hl : Linked W) (w : ℕ) (x : NativeMethod) (c : ℕ) :
    (W.invoke w x).log c = W.log c ++ added ((W.channelOf w).map fun d => (d, x)) c := by
  cases hd : W.channelOf w with
  | none => simp [World.invoke, hd, added]
  | some d =>
    have hlt := channelOf_lt hl w d hd
    simp only [World.invoke, hd, World.log, added, Option.map_some, List.getElem?_modify]
    by_cases hdc : d = c
    · subst hdc
      simp [List.getElem?_eq_getElem hlt]
    · simp [hdc]

theorem step_log (hl : Linked W) (hs : step W a = some T) (c : ℕ) :
    T.log c = W.log c ++ added (invocation W a) c := by
  cases step_effect hs with
  | created service channelId d hd =>
    simp only [World.createChannel, World.log, invocation, added, List.append_nil]
    split
    · rfl
    · -- a new channel has an empty log, as a missing one has
      by_cases hlt : c < W.channels.length
      · rw [List.getElem?_append_left hlt]
      · rw [List.getElem?_append_right (by omega), List.getElem?_eq_none (by omega : _ ≤ c),
          List.getElem?_singleton]
        split <;> rfl
  | requested w r hp =>
    cases hx : r.invokes with
    | none => simp [World.request, hx, invocation, added]
    | some x =>
      have hinvoke := invoke_log hl w x c
      simpa [World.request_some hx, World.log, World.update, invocation, hx] using hinvoke
  | registered w isFunction hp =>
    cases isFunction <;> simp [World.onEvent, World.update, World.log, invocation, added]
  | finalized w hp => exact invoke_log hl w .release c
  | _ => simp [World.update, World.log, invocation, added]

theorem change_channel {h : ℕ} {wr wr' : Wrapper} (hc : Change a h wr wr') :
    wr'.channel_ = wr.channel_ := by
  cases hc <;> rfl

theorem change_ended {h c : ℕ} {wr wr' : Wrapper} (hc : Change a h wr wr')
    (hwr : W.wrappers[h]? = some wr) (hch : wr.channel_ = some c) :
    (wr'.released = true ∨ wr'.destroyed = true) ↔
      (wr.released = true ∨ wr.destroyed = true) ∨ invocation W a = some (c, .release) := by
  have hof : W.channelOf h = some c := by simp [World.channelOf, hwr, hch]
  cases hc with
  | requested w r x wr hx hr =>
    simp only [invocation, hx, hof, Option.bind_some, Option.map_some, Option.some.injEq,
      Prod.mk.injEq, true_and, Bool.or_eq_true, decide_eq_true_eq]
    tauto
  | registered w wr hr => simp [invocation]
  | dropped w wr hr => simp [invocation]
  | revived w wr hp hd => simp [invocation]
  | finalized w wr hc => simp [invocation, hof]

theorem release_ends {c : ℕ} (hs : step W a = some T) (hi : invocation W a = some (c, .release)) :
    Ended T c := by
  cases step_effect hs with
  | requested w r hp =>
    obtain ⟨x, hx, hmap⟩ := Option.bind_eq_some_iff.mp hi
    obtain ⟨d, hd, hpair⟩ := Option.map_eq_some_iff.mp hmap
    obtain ⟨rfl, rfl⟩ := Prod.mk.inj hpair
    obtain ⟨wr, hwr, hch⟩ := Option.bind_eq_some_iff.mp hd
    have hw : (W.request w r).wrappers[w]? = some { wr with released := true } := by
      rw [World.request_some hx, World.update_wrappers, World.invoke_wrappers]
      simp [hwr]
    exact ⟨_, List.mem_of_getElem? hw, hch, Or.inl rfl⟩
  | finalized w hp =>
    obtain ⟨d, hd, hpair⟩ := Option.map_eq_some_iff.mp hi
    obtain ⟨rfl, -⟩ := Prod.mk.inj hpair
    obtain ⟨wr, hwr, -, hw⟩ := step_finalize hs
    have hch : wr.channel_ = some d := by simpa [World.channelOf, hwr] using hd
    exact ⟨_, List.mem_of_getElem? hw, hch, Or.inr rfl⟩
  | _ => cases hi

theorem step_ended (hs : step W a = some T) (c : ℕ) :
    Ended T c ↔ Ended W c ∨ invocation W a = some (c, .release) := by
  constructor
  · rintro ⟨wr', hmem, hch, hflag⟩
    obtain ⟨h, hwr'⟩ := List.mem_iff_getElem?.mp hmem
    rcases step_follows hs h with hsame | ⟨-, d, hfresh, -⟩ | ⟨wr, wr'', hwr, hwr'', hchange⟩
    · exact Or.inl ⟨wr', List.mem_of_getElem? (by rw [← hsame, hwr']), hch, hflag⟩
    · obtain rfl : fresh d = wr' := by simpa [hfresh] using hwr'
      simp [fresh] at hflag
    · obtain rfl : wr'' = wr' := by simpa [hwr''] using hwr'
      rw [change_channel hchange] at hch
      rcases (change_ended hchange hwr hch).mp hflag with hold | hnew
      · exact Or.inl ⟨wr, List.mem_of_getElem? hwr, hch, hold⟩
      · exact Or.inr hnew
  · rintro (⟨wr, hmem, hch, hflag⟩ | hi)
    · obtain ⟨h, hwr⟩ := List.mem_iff_getElem?.mp hmem
      rcases step_follows hs h with hsame | ⟨hnone, -⟩ | ⟨wr0, wr', hwr0, hwr', hchange⟩
      · exact ⟨wr, List.mem_of_getElem? (by rw [hsame, hwr]), hch, hflag⟩
      · rw [hwr] at hnone
        cases hnone
      · obtain rfl : wr0 = wr := by simpa [hwr0] using hwr
        refine ⟨wr', List.mem_of_getElem? hwr', by rw [change_channel hchange, hch], ?_⟩
        exact (change_ended hchange hwr0 hch).mpr (Or.inl hflag)
    · exact release_ends hs hi

theorem lookup_le (W : World) (service : ℕ) (channelId : String) :
    W.lookup service channelId ≤ W.channels.length := by
  unfold World.lookup
  cases hi : W.channels.findIdx? fun k =>
      k.service = service ∧ k.channelId = channelId ∧ .release ∉ k.log with
  | none => exact Nat.le_refl _
  | some i =>
    have hlt := (List.findIdx?_eq_some_iff_findIdx_eq.mp hi).1
    exact Nat.le_of_lt hlt

theorem invoke_length (W : World) (w : ℕ) (x : NativeMethod) :
    (W.invoke w x).channels.length = W.channels.length := by
  unfold World.invoke
  split
  · rfl
  · simp

theorem step_length (hs : step W a = some T) : W.channels.length ≤ T.channels.length := by
  cases step_effect hs with
  | created service channelId c hc =>
    simp only [World.createChannel]
    split <;> simp
  | requested w r hp =>
    cases hx : r.invokes with
    | none => simp [World.request, hx]
    | some x => simp [World.request_some hx, World.update, invoke_length]
  | registered w isFunction hp => cases isFunction <;> exact Nat.le_refl _
  | finalized w hp => simp [World.destroy, World.update, invoke_length]
  | _ => exact Nat.le_refl _

theorem step_linked (hl : Linked W) (hs : step W a = some T) : Linked T := by
  intro wr' hmem c hch
  have hle := step_length hs
  obtain ⟨h, hwr'⟩ := List.mem_iff_getElem?.mp hmem
  rcases step_follows hs h with hsame | ⟨-, d, hfresh, hcreates⟩ | ⟨wr, wr'', hwr, hwr'', hchange⟩
  · have hlt := hl wr' (List.mem_of_getElem? (by rw [← hsame, hwr'])) c hch
    omega
  · obtain rfl : fresh d = wr' := by simpa [hfresh] using hwr'
    cases hcreates with
    | controller => cases hch
    | channel service channelId d =>
      obtain rfl : d = c := by simpa [fresh] using hch
      have hlookup := lookup_le W service channelId
      cases step_effect hs with
      | created service channelId d heq =>
        simp only [World.createChannel]
        split
        · assumption
        · simp
          omega
  · obtain rfl : wr'' = wr' := by simpa [hwr''] using hwr'
    rw [change_channel hchange] at hch
    have hlt := hl wr (List.mem_of_getElem? hwr) c hch
    omega

end Steps

/-- A channel's log holds a release just if the channel has ended. -/
structure Traced (W : World) : Prop where
  linked : Linked W
  ended : ∀ c, .release ∈ W.log c ↔ Ended W c

theorem init_traced : Traced init where
  linked wr h := by cases h
  ended c := by simp [init, World.log, Ended]

theorem step_traced (W : World) (a : Action) (T : World) (h : Traced W)
    (hs : step W a = some T) : Traced T := by
  refine ⟨step_linked h.linked hs, ?_⟩
  intro c
  rw [step_log h.linked hs c, step_ended hs c, List.mem_append, h.ended c]
  have hadded : .release ∈ added (invocation W a) c ↔ invocation W a = some (c, .release) := by
    cases invocation W a with
    | none => simp [added]
    | some p =>
      obtain ⟨d, x⟩ := p
      simp only [added, Option.some.injEq, Prod.mk.injEq]
      split <;> simp_all [eq_comm]
  rw [hadded]

theorem orderly_step_iff (W : World) (a : Action) (T : World) (h : Traced W)
    (hw : ∀ c, OnceReleased (W.log c)) (hs : step W a = some T) :
    (∀ c, OnceReleased (T.log c)) ↔ Orderly W a := by
  cases hi : invocation W a with
  | none =>
    have hsame : ∀ c, T.log c = W.log c := by
      intro c
      rw [step_log h.linked hs c, hi]
      simp [added]
    simp [hsame, hw, Orderly, hi]
  | some p =>
    obtain ⟨d, x⟩ := p
    have hd : T.log d = W.log d ++ [x] := by
      rw [step_log h.linked hs d, hi]
      simp [added]
    have hother : ∀ c, c ≠ d → T.log c = W.log c := by
      intro c hc
      rw [step_log h.linked hs c, hi]
      simp [added, Ne.symm hc]
    have hiff := onceReleased_snoc (W.log d) x (hw d)
    rw [← hd, h.ended d] at hiff
    have horderly : Orderly W a ↔ ¬ Ended W d := by simp [Orderly, hi]
    rw [horderly, ← hiff]
    constructor
    · intro hall
      exact hall d
    · intro hone c
      by_cases hc : c = d
      · rw [hc]
        exact hone
      · rw [hother c hc]
        exact hw c

theorem onceReleased_of_step (W : World) (a : Action) (T : World) (h : Traced W)
    (hs : step W a = some T) (hT : ∀ c, OnceReleased (T.log c)) (c : ℕ) :
    OnceReleased (W.log c) := by
  have hc := hT c
  rw [step_log h.linked hs c] at hc
  exact onceReleased_init _ _ hc

/-- A run releases each native channel at most once, and invokes nothing on it
afterwards, just if it is orderly. -/
theorem released_once_iff (as : List Action) (W : World) (h : run step always init as = some W) :
    (∀ c, OnceReleased (W.log c)) ↔ run step Orderly init as = some W := by
  apply run_keeps_iff step_traced orderly_step_iff ?_ h init_traced
  · intro c
    exact ⟨Nat.zero_le 1, by simp [init, World.log]⟩
  · intro W a T hW hlost hs hT
    exact hlost (onceReleased_of_step W a T hW hs hT)

def orderlyRun : List Action :=
  [.newController, .createChannel 0 "room" (some 0), .method 1 .join, .method 1 .leave, .drop 1,
    .finalize 1, .createChannel 0 "room" (some 1)]

theorem released_once_orderly :
    (final step always init orderlyRun).log 0 = [.join, .leave, .release] ∧
    OnceReleased ((final step always init orderlyRun).log 0) :=
  ⟨rfl, (released_once_iff orderlyRun _ rfl).mpr rfl 0⟩

-- `release` from JavaScript, and then the destructor.
def releasedRun : List Action :=
  [.newController, .createChannel 0 "room" (some 0), .method 1 .release, .drop 1, .finalize 1]

theorem channel_released_twice :
    ¬ ∀ (as : List Action) (W : World), run step always init as = some W →
      ∀ c, OnceReleased (W.log c) := by
  intro h
  have hlog := h releasedRun (final step always init releasedRun) rfl 0
  exact absurd hlog.1 (by decide)

end AgoraRtm.Lifetime
