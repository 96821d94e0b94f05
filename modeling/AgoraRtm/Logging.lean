import AgoraRtm.Runs
import AgoraRtm.Sampling
import Mathlib.Algebra.Group.Nat.Defs

/-!
# Sampled logging

A message above the enabled level is passed to the system log only while the
counter that all such messages share is in the streak of its interval. The
`LOG2` macro asks before it calls `Log`, which asks again.
-/

set_option autoImplicit false

namespace AgoraRtm.Logging
open Runs

inductive Severity where
  | kDebugLog
  | kInfoLog
  | kNoticeLog
  | kWarnLog
  | kErrorLog
  | kFatalLog
  deriving DecidableEq, Repr

def Severity.value : Severity → ℕ
  | .kDebugLog => 7
  | .kInfoLog => 6
  | .kNoticeLog => 5
  | .kWarnLog => 4
  | .kErrorLog => 3
  | .kFatalLog => 2

def kDropInterval : ℕ := 50000

structure State where
  g_enabled_level : ℕ
  g_logging_count : BitVec 64
  g_logging_out_streak : BitVec 32
  deriving DecidableEq, Repr

def init : State := ⟨Severity.kInfoLog.value, 0, 2⟩

def EnableDebugLogging (enabled : Bool) (s : State) : State :=
  if enabled then { s with g_enabled_level := Severity.kDebugLog.value }
  else { s with g_enabled_level := Severity.kInfoLog.value }

def SetLoggingStreak (streak : BitVec 32) (s : State) : Bool × State :=
  if streak.toNat > kDropInterval then
    (false, { s with g_logging_out_streak := BitVec.ofNat 32 kDropInterval })
  else (true, { s with g_logging_out_streak := streak })

def IsLoggingEnabled (level : Severity) (s : State) : Bool × State :=
  if level.value ≤ s.g_enabled_level then (true, s)
  else
    let s := { s with g_logging_count := s.g_logging_count+1 }
    (decide (s.g_logging_count.toNat%kDropInterval < s.g_logging_out_streak.toNat), s)

abbrev Line := Severity × String

def Log (level : Severity) (message : String) (s : State) : List Line × State :=
  let (enabled, s) := IsLoggingEnabled level s
  if !enabled then ([], s) else ([(level, message)], s)

def LOG2 (level : Severity) (message : String) (s : State) : List Line × State :=
  let (enabled, s) := IsLoggingEnabled level s
  if enabled then Log level message s else ([], s)

def LOG2s : List Line → State → List Line × State
  | [], s => ([], s)
  | (level, message) :: calls, s =>
    let (lines, s) := LOG2 level message s
    let (more, s) := LOG2s calls s
    (lines ++ more, s)

def State.suppressed (s : State) (level : Severity) : Bool := s.g_enabled_level < level.value

def State.streak (s : State) : ℕ := s.g_logging_out_streak.toNat

def State.count (s : State) : ℕ := s.g_logging_count.toNat

inductive Action where
  | setLoggingStreak (streak : BitVec 32)
  | enableDebugLogging (enabled : Bool)
  | isLoggingEnabled (level : Severity)
  deriving DecidableEq, Repr

def perform (s : State) : Action → State
  | .setLoggingStreak streak => (SetLoggingStreak streak s).2
  | .enableDebugLogging enabled => EnableDebugLogging enabled s
  | .isLoggingEnabled level => (IsLoggingEnabled level s).2

def step (s : State) (a : Action) : Option State := some (perform s a)

def answer (s : State) : Action → Option (Severity × Bool)
  | .isLoggingEnabled level => some (level, (IsLoggingEnabled level s).1)
  | _ => none

def asked : State → List Action → List (Severity × Bool)
  | _, [] => []
  | s, a :: as => (answer s a).toList ++ asked (perform s a) as

/-- The streak and the enabled level stay as they are. -/
def Steady (s : State) (a : Action) : Prop :=
  (perform s a).g_enabled_level = s.g_enabled_level ∧
    (perform s a).g_logging_out_streak = s.g_logging_out_streak

instance (s : State) (a : Action) : Decidable (Steady s a) :=
  inferInstanceAs (Decidable (_ ∧ _))

section Asking

variable {s : State} {level : Severity}

theorem not_suppressed : s.suppressed level = false ↔ level.value ≤ s.g_enabled_level := by
  simp [State.suppressed]

theorem enabled_answer (h : s.suppressed level = false) : IsLoggingEnabled level s = (true, s) := by
  rw [IsLoggingEnabled, if_pos (not_suppressed.mp h)]

theorem suppressed_count (h : s.suppressed level = true) :
    (IsLoggingEnabled level s).2.count = (s.count+1)%2^64 := by
  have hlevel : ¬ level.value ≤ s.g_enabled_level := by simpa [State.suppressed] using h
  rw [IsLoggingEnabled, if_neg hlevel]
  exact BitVec.toNat_add _ _

theorem suppressed_answer (h : s.suppressed level = true) (hwrap : s.count+1 < 2^64) :
    (IsLoggingEnabled level s).1 = decide (Sampling.Accepts kDropInterval s.streak (s.count+1)) ∧
    (IsLoggingEnabled level s).2.count = s.count+1 := by
  have hcount := suppressed_count h
  rw [Nat.mod_eq_of_lt hwrap] at hcount
  have hlevel : ¬ level.value ≤ s.g_enabled_level := by simpa [State.suppressed] using h
  refine ⟨?_, hcount⟩
  rw [IsLoggingEnabled, if_neg hlevel] at hcount ⊢
  refine decide_eq_decide.mpr ?_
  rw [← hcount]
  exact Iff.rfl

@[simp] theorem asking_level :
    (IsLoggingEnabled level s).2.g_enabled_level = s.g_enabled_level := by
  unfold IsLoggingEnabled
  split <;> rfl

@[simp] theorem asking_streak :
    (IsLoggingEnabled level s).2.g_logging_out_streak = s.g_logging_out_streak := by
  unfold IsLoggingEnabled
  split <;> rfl

theorem set_streak_le (streak : BitVec 32) :
    (SetLoggingStreak streak s).2.streak ≤ kDropInterval := by
  unfold SetLoggingStreak
  split
  · exact Nat.le_refl kDropInterval
  · rename_i h
    exact Nat.le_of_not_lt h

theorem set_streak_count (streak : BitVec 32) : (SetLoggingStreak streak s).2.count = s.count := by
  unfold SetLoggingStreak
  split <;> rfl

end Asking

theorem step_streak (s : State) (a : Action) (t : State) (h : s.streak ≤ kDropInterval)
    (hs : step s a = some t) : t.streak ≤ kDropInterval := by
  obtain rfl := Option.some.inj hs
  cases a with
  | setLoggingStreak streak => exact set_streak_le streak
  | enableDebugLogging enabled => cases enabled <;> exact h
  | isLoggingEnabled level => simpa [perform, State.streak] using h

theorem reach_streak {s : State} (h : Reach step always init s) : s.streak ≤ kDropInterval :=
  h.invariant (by decide) fun s a t hs _ ht => step_streak s a t hs ht

theorem perform_cases {s : State} {a : Action} (h : Steady s a) :
    (answer s a = none ∧ (perform s a).count = s.count) ∨
    (∃ level, s.suppressed level = false ∧ answer s a = some (level, true) ∧
      (perform s a).count = s.count) ∨
    ∃ level, s.suppressed level = true ∧
      answer s a = some (level, (IsLoggingEnabled level s).1) ∧
      perform s a = (IsLoggingEnabled level s).2 := by
  cases a with
  | setLoggingStreak streak => exact Or.inl ⟨rfl, set_streak_count streak⟩
  | enableDebugLogging enabled => exact Or.inl ⟨rfl, by cases enabled <;> rfl⟩
  | isLoggingEnabled level =>
    cases hl : s.suppressed level with
    | false =>
      have hanswer := enabled_answer hl
      exact Or.inr (Or.inl ⟨level, hl, by simp [answer, hanswer], by simp [perform, hanswer]⟩)
    | true => exact Or.inr (Or.inr ⟨level, hl, rfl, rfl⟩)

theorem asked_counts (as : List Action) (s t : State) (h : run step Steady s as = some t)
    (hwrap : s.count + (asked s as).countP (fun x => s.suppressed x.1) < 2^64) :
    (asked s as).countP (fun x => s.suppressed x.1 && x.2) =
      Sampling.accepted kDropInterval s.streak s.count
        ((asked s as).countP fun x => s.suppressed x.1) ∧
    t.count = s.count + (asked s as).countP (fun x => s.suppressed x.1) ∧
    ∀ x ∈ asked s as, s.suppressed x.1 = false → x.2 = true := by
  induction as generalizing s with
  | nil =>
    obtain rfl : s = t := by simpa [run] using h
    simp [asked, Sampling.accepted]
  | cons a as ih =>
    simp only [run] at h
    split at h
    · rename_i hsteady
      have hrun : run step Steady (perform s a) as = some t := h
      have hlevel : (perform s a).suppressed = s.suppressed := by
        funext level
        simp [State.suppressed, hsteady.1]
      have hstreak : (perform s a).streak = s.streak := by simp [State.streak, hsteady.2]
      have hrest := ih (perform s a) hrun
      rw [hlevel, hstreak] at hrest
      rcases perform_cases hsteady with ⟨ha, hcount⟩ | ⟨level, hl, ha, hcount⟩ | ⟨level, hl, ha, hp⟩
      · simp only [asked, ha, Option.toList_none, List.nil_append, hcount] at hrest hwrap ⊢
        exact hrest hwrap
      · simp only [asked, ha, Option.toList_some, List.singleton_append, List.countP_cons, hl,
          hcount, Bool.false_and, Bool.false_eq_true, if_false, Nat.add_zero] at hrest hwrap ⊢
        obtain ⟨hkept, hcounter, henabled⟩ := hrest hwrap
        refine ⟨hkept, hcounter, ?_⟩
        intro x hx
        rcases List.mem_cons.mp hx with rfl | hx
        · exact fun _ => rfl
        · exact henabled x hx
      · simp only [asked, ha, Option.toList_some, List.singleton_append, List.countP_cons, hl,
          Bool.true_and, if_true] at hrest hwrap ⊢
        obtain ⟨hanswer, hcount⟩ := suppressed_answer hl (by omega)
        rw [hp, hcount] at hrest
        rw [hp]
        rw [hp] at hwrap
        obtain ⟨hkept, hcounter, henabled⟩ := hrest (by omega)
        refine ⟨?_, by omega, ?_⟩
        · rw [hkept, Sampling.accepted_succ, hanswer]
          simp only [decide_eq_true_eq]
        · intro x hx
          rcases List.mem_cons.mp hx with rfl | hx
          · intro hfalse
            rw [hl] at hfalse
            cases hfalse
          · exact henabled x hx
    · cases h

/-- Exact sampling: the streak never exceeds the interval, calls at enabled levels
are answered with true and leave the counter, and of as many calls at suppressed
levels as the interval is long just the streak is answered with true, whatever
other calls stand between them. -/
theorem sampling_exact (s : State) (h : Reach step always init s) :
    s.streak ≤ kDropInterval ∧
    (∀ level, s.suppressed level = false → IsLoggingEnabled level s = (true, s)) ∧
    ∀ (as : List Action) (t : State), run step Steady s as = some t →
      (asked s as).countP (fun x => s.suppressed x.1) = kDropInterval →
      s.count + kDropInterval < 2^64 →
      (asked s as).countP (fun x => s.suppressed x.1 && x.2) = s.streak ∧
      t.count = s.count + kDropInterval ∧
      ∀ x ∈ asked s as, s.suppressed x.1 = false → x.2 = true := by
  have hstreak := reach_streak h
  refine ⟨hstreak, fun _ => enabled_answer, ?_⟩
  intro as t hrun hcalls hwrap
  have hcounts := asked_counts as s t hrun (by omega)
  rw [hcalls, Sampling.accepted_window hstreak] at hcounts
  exact hcounts

theorem asking_run {s : State} {level : Severity} (h : s.suppressed level = true) (n : ℕ) :
    ∃ t, run step Steady s (List.replicate n (.isLoggingEnabled level)) = some t ∧
      (asked s (List.replicate n (.isLoggingEnabled level))).countP (fun x => s.suppressed x.1) =
        n := by
  induction n generalizing s with
  | zero => exact ⟨s, rfl, rfl⟩
  | succ n ih =>
    have hsteady : Steady s (.isLoggingEnabled level) := ⟨asking_level, asking_streak⟩
    have hlevel : (perform s (.isLoggingEnabled level)).suppressed = s.suppressed := by
      funext other
      simp [State.suppressed, hsteady.1]
    obtain ⟨t, hrun, hcount⟩ := ih (s := perform s (.isLoggingEnabled level)) (by rw [hlevel, h])
    rw [hlevel] at hcount
    refine ⟨t, ?_, ?_⟩
    · simp only [List.replicate_succ, run, hsteady, if_true, step, Option.bind_some]
      exact hrun
    · simp [List.replicate_succ, asked, answer, h, hcount]

theorem sampling_exact_debug :
    (asked init (List.replicate kDropInterval (.isLoggingEnabled .kDebugLog))).countP
      (fun x => init.suppressed x.1 && x.2) = 2 := by
  obtain ⟨t, hrun, hcount⟩ := @asking_run init .kDebugLog rfl kDropInterval
  exact ((sampling_exact init (Reach.refl init)).2.2 _ t hrun hcount (by decide)).1

/-- The counter does not wrap in a run of `LOG2` calls: none leaves it lower. -/
def Unwrapped : State → List Line → Prop
  | _, [] => True
  | s, (level, message) :: calls =>
    s.count ≤ (LOG2 level message s).2.count ∧ Unwrapped (LOG2 level message s).2 calls

/-- Every window of as many calls as the interval writes as many lines as the streak. -/
def Honoured (s : State) (calls : List Line) : Prop :=
  ∀ before window after, calls = before ++ window ++ after → window.length = kDropInterval →
    (LOG2s window (LOG2s before s).2).1.length = s.streak

section Calling

variable {s : State} {level : Severity} {message : String}

theorem Log_eq : Log level message s =
    if (IsLoggingEnabled level s).1 then ([(level, message)], (IsLoggingEnabled level s).2)
    else ([], (IsLoggingEnabled level s).2) := by
  cases h : IsLoggingEnabled level s with
  | mk enabled t => cases enabled <;> simp [Log, h]

theorem LOG2_eq : LOG2 level message s =
    if (IsLoggingEnabled level s).1 then Log level message (IsLoggingEnabled level s).2
    else ([], (IsLoggingEnabled level s).2) := rfl

theorem suppressed_log (h : s.suppressed level = true) (hwrap : s.count+1 < 2^64) :
    (Log level message s).1.length =
      (if Sampling.Accepts kDropInterval s.streak (s.count+1) then 1 else 0) ∧
    (Log level message s).2.count = s.count+1 := by
  obtain ⟨hanswer, hcount⟩ := suppressed_answer h hwrap
  rw [Log_eq, hanswer]
  by_cases hp : Sampling.Accepts kDropInterval s.streak (s.count+1)
  · simp [hp, hcount]
  · simp [hp, hcount]

@[simp] theorem log_state : (Log level message s).2 = (IsLoggingEnabled level s).2 := by
  rw [Log_eq]
  split <;> rfl

theorem LOG2_level : (LOG2 level message s).2.g_enabled_level = s.g_enabled_level ∧
    (LOG2 level message s).2.g_logging_out_streak = s.g_logging_out_streak := by
  rw [LOG2_eq]
  split <;> simp

/-- A call at a suppressed level asks the sampler twice. -/
theorem LOG2_twice (h : s.suppressed level = true)
    (hwrap : s.count ≤ (LOG2 level message s).2.count) :
    ((LOG2 level message s).1.length, (LOG2 level message s).2.count) =
      Sampling.twice kDropInterval s.streak s.count := by
  have hlevel : (IsLoggingEnabled level s).2.suppressed level = true := by
    simpa [State.suppressed] using h
  have hstreak : (IsLoggingEnabled level s).2.streak = s.streak := by simp [State.streak]
  have hmax : s.count < 2^64 := s.g_logging_count.isLt
  have hnext := suppressed_count h
  have hlast := suppressed_count hlevel
  -- a wrap would leave the counter at 0 or 1, below where it was
  have hfirst : s.count+1 < 2^64 := by
    by_contra hw
    rw [LOG2_eq] at hwrap
    split at hwrap
    · rw [log_state] at hwrap
      omega
    · simp only at hwrap
      omega
  obtain ⟨hanswer, hcount⟩ := suppressed_answer h hfirst
  rw [LOG2_eq, hanswer] at hwrap ⊢
  by_cases hp : Sampling.Accepts kDropInterval s.streak (s.count+1)
  · simp only [hp, decide_true, if_true, log_state] at hwrap ⊢
    have hsecond : s.count+1+1 < 2^64 := by omega
    obtain ⟨hlines, hcount'⟩ := @suppressed_log _ _ message hlevel (by omega)
    rw [hstreak, hcount] at hlines
    rw [log_state, hcount] at hcount'
    rw [hlines, hcount', Sampling.twice, if_pos hp]
  · simp only [hp, decide_false, Bool.false_eq_true, if_false, hcount]
    rw [Sampling.twice_refuse hp, List.length_nil]

end Calling

theorem LOG2s_written (calls : List Line) (s : State)
    (hsup : ∀ call ∈ calls, s.suppressed call.1 = true) (hwrap : Unwrapped s calls) :
    (LOG2s calls s).1.length = Sampling.written kDropInterval s.streak calls.length s.count ∧
    (LOG2s calls s).2.count = Sampling.counter kDropInterval s.streak calls.length s.count ∧
    (LOG2s calls s).2.suppressed = s.suppressed ∧ (LOG2s calls s).2.streak = s.streak := by
  induction calls generalizing s with
  | nil => exact ⟨rfl, rfl, rfl, rfl⟩
  | cons call calls ih =>
    obtain ⟨level, message⟩ := call
    obtain ⟨hfirst, hrest⟩ := hwrap
    have htwice := LOG2_twice (hsup _ (List.mem_cons_self ..)) hfirst
    have hlevel : (LOG2 level message s).2.suppressed = s.suppressed := by
      funext other
      simp [State.suppressed, LOG2_level.1]
    have hstreak : (LOG2 level message s).2.streak = s.streak := by
      simp [State.streak, LOG2_level.2]
    obtain ⟨hlines, hcount, hkept⟩ := ih (LOG2 level message s).2
      (fun call hcall => by rw [hlevel]; exact hsup call (List.mem_cons_of_mem _ hcall)) hrest
    rw [hlevel, hstreak] at hkept
    rw [hstreak] at hlines hcount
    simp only [LOG2s, List.length_append, List.length_cons, Sampling.written, Sampling.counter,
      ← htwice]
    exact ⟨by rw [hlines], hcount, hkept⟩

theorem Unwrapped.append {before after : List Line} {s : State}
    (h : Unwrapped s (before ++ after)) :
    Unwrapped s before ∧ Unwrapped (LOG2s before s).2 after := by
  induction before generalizing s with
  | nil => exact ⟨trivial, h⟩
  | cons call before ih =>
    obtain ⟨hfirst, hrest⟩ := h
    exact ⟨⟨hfirst, (ih hrest).1⟩, (ih hrest).2⟩

/-- A window writes what the sampler makes of it from where it begins. -/
theorem window_written {s : State} {before window after : List Line}
    (hsup : ∀ call ∈ before ++ window ++ after, s.suppressed call.1 = true)
    (hwrap : Unwrapped s (before ++ window ++ after)) :
    (LOG2s window (LOG2s before s).2).1.length =
      Sampling.written kDropInterval s.streak window.length
        (Sampling.counter kDropInterval s.streak before.length s.count) := by
  obtain ⟨hbefore, hwindow⟩ := hwrap.append.1.append
  obtain ⟨-, hcount, hlevel, hstreak⟩ := LOG2s_written before s
    (fun call hcall => hsup call (by simp [hcall])) hbefore
  have hlines := (LOG2s_written window (LOG2s before s).2
    (fun call hcall => by rw [hlevel]; exact hsup call (by simp [hcall])) hwindow).1
  rw [hlines, hstreak, hcount]

theorem honoured_windows {s : State} {calls : List Line}
    (hsup : ∀ call ∈ calls, s.suppressed call.1 = true) (hwrap : Unwrapped s calls) :
    Honoured s calls ↔ ∀ i, i+kDropInterval ≤ calls.length →
      Sampling.written kDropInterval s.streak kDropInterval
        (Sampling.counter kDropInterval s.streak i s.count) = s.streak := by
  constructor
  · intro h i hi
    have hsplit : calls =
        calls.take i ++ (calls.drop i).take kDropInterval ++ (calls.drop i).drop kDropInterval := by
      rw [List.append_assoc, List.take_append_drop, List.take_append_drop]
    have hlength : ((calls.drop i).take kDropInterval).length = kDropInterval := by
      rw [List.length_take, List.length_drop]
      omega
    have hwindow := h _ _ _ hsplit hlength
    rw [hsplit] at hsup hwrap
    rw [window_written hsup hwrap, hlength, List.length_take, Nat.min_eq_left (by omega)] at hwindow
    exact hwindow
  · rintro h before window after rfl hlength
    rw [window_written hsup hwrap, hlength]
    apply h
    simp only [List.length_append]
    omega

theorem LOG2_count {s : State} {level : Severity} {message : String}
    (h : s.suppressed level = true) (hwrap : s.count+2 < 2^64) :
    s.count ≤ (LOG2 level message s).2.count ∧ (LOG2 level message s).2.count ≤ s.count+2 := by
  have hlevel : (IsLoggingEnabled level s).2.suppressed level = true := by
    simpa [State.suppressed] using h
  have hnext := suppressed_count h
  have hlast := suppressed_count hlevel
  rw [LOG2_eq]
  split
  · rw [log_state]
    omega
  · simp only
    omega

theorem unwrapped_of_room (calls : List Line) (s : State)
    (hsup : ∀ call ∈ calls, s.suppressed call.1 = true)
    (hroom : s.count + 2*calls.length < 2^64) : Unwrapped s calls := by
  induction calls generalizing s with
  | nil => trivial
  | cons call calls ih =>
    obtain ⟨level, message⟩ := call
    have hlevel : (LOG2 level message s).2.suppressed = s.suppressed := by
      funext other
      simp [State.suppressed, LOG2_level.1]
    rw [List.length_cons] at hroom
    obtain ⟨hge, hle⟩ := @LOG2_count s level message (hsup _ (List.mem_cons_self ..))
      (by omega)
    refine ⟨hge, ih _ ?_ (by omega)⟩
    intro call hcall
    rw [hlevel]
    exact hsup call (List.mem_cons_of_mem _ hcall)

/-- A run of `LOG2` calls at suppressed levels honours the streak in all its
windows just if the streak is the whole interval, or there are too few calls for
a window, or they are one window, the streak is even and the window begins with
the interval. -/
theorem streak_honoured (s : State) (calls : List Line) (hpos : 1 ≤ s.streak)
    (hle : s.streak ≤ kDropInterval) (hsup : ∀ call ∈ calls, s.suppressed call.1 = true)
    (hwrap : Unwrapped s calls) :
    Honoured s calls ↔
      s.streak = kDropInterval ∨ calls.length < kDropInterval ∨
        calls.length = kDropInterval ∧ 2 ∣ s.streak ∧ (s.count+1)%kDropInterval = 0 := by
  rw [honoured_windows hsup hwrap]
  exact Sampling.windows_iff hpos hle calls.length s.count

def debugCalls : List Line := List.replicate kDropInterval (.kDebugLog, "on event")

theorem debugCalls_suppressed (s : State) (h : s.g_enabled_level = 6) :
    ∀ call ∈ debugCalls, s.suppressed call.1 = true := by
  intro call hcall
  obtain rfl := List.eq_of_mem_replicate hcall
  simp [State.suppressed, h, Severity.value]

theorem streak_honoured_aligned :
    Honoured ⟨6, 49999, 2⟩ debugCalls ∧ ¬ Honoured ⟨6, 49999, 3⟩ debugCalls := by
  have hlength : debugCalls.length = kDropInterval := List.length_replicate
  constructor
  · have hsup := debugCalls_suppressed ⟨6, 49999, 2⟩ rfl
    have hwrap := unwrapped_of_room debugCalls ⟨6, 49999, 2⟩ hsup (by rw [hlength]; decide)
    exact (streak_honoured _ _ (by decide) (by decide) hsup hwrap).mpr
      (Or.inr (Or.inr ⟨hlength, by decide, by decide⟩))
  · have hsup := debugCalls_suppressed ⟨6, 49999, 3⟩ rfl
    have hwrap := unwrapped_of_room debugCalls ⟨6, 49999, 3⟩ hsup (by rw [hlength]; decide)
    intro h
    have hcases := (streak_honoured _ _ (by decide) (by decide) hsup hwrap).mp h
    rw [hlength] at hcases
    revert hcases
    decide

/-- With the streak and the counter that the code starts with, 50000 debug
messages do not write two lines. -/
theorem starting_streak_missed :
    ¬ ∀ (s : State) (calls : List Line), 1 ≤ s.streak → s.streak ≤ kDropInterval →
      (∀ call ∈ calls, s.suppressed call.1 = true) → Unwrapped s calls → Honoured s calls := by
  intro h
  have hlength : debugCalls.length = kDropInterval := List.length_replicate
  have hsup := debugCalls_suppressed init rfl
  have hwrap := unwrapped_of_room debugCalls init hsup (by rw [hlength]; decide)
  have hwindows := (honoured_windows hsup hwrap).mp (h init debugCalls (by decide) (by decide) hsup
    hwrap)
  have hcases := (Sampling.windows_iff (by decide) (by decide) _ _).mp hwindows
  rw [hlength] at hcases
  revert hcases
  decide

end AgoraRtm.Logging
