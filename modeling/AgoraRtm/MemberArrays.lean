import AgoraRtm.Closing
import AgoraRtm.Ownership

/-!
# The arrays of `onGetMembers`

The callback copies the members into an array of its own on the SDK's thread and
posts a task that captures the array and deletes it at its end. The array of a
task that never runs is never deleted.
-/

set_option autoImplicit false

namespace AgoraRtm.MemberArrays
open Runs AsyncQueue Ownership

abbrev Captured := Option ℕ

structure World where
  queue : AsyncQueue.State Captured
  /-- How many arrays have been allocated; it names the next one. -/
  next : ℕ
  log : List (Deed ℕ)
  /-- The arrays whose tasks a closed queue did not take. -/
  refused : List ℕ

def init : World := ⟨AsyncQueue.init, 0, [], []⟩

inductive Action where
  | onGetMembers (caller : Actor)
  | otherCallback (caller : Actor)
  | queue (a : AsyncQueue.Action Captured)

def deleted (s : World) : AsyncQueue.Action Captured → List (Deed ℕ)
  | .finish =>
    match s.queue.loop with
    | .running e => (e.elem.map Deed.release).toList
    | _ => []
  | _ => []

def step (s : World) : Action → Option World
  | .onGetMembers caller =>
    (AsyncQueue.step s.queue (.call caller (some s.next))).map fun q =>
      { queue := q
        next := s.next+1
        log := s.log ++ [.acquire s.next]
        refused := s.refused ++ if s.queue.closed then [s.next] else [] }
  | .otherCallback caller =>
    (AsyncQueue.step s.queue (.call caller none)).map fun q => { s with queue := q }
  | .queue (.call _ _) => none
  | .queue a =>
    (AsyncQueue.step s.queue a).map fun q => { s with queue := q, log := s.log ++ deleted s a }

def arrays (entries : List (Entry Captured)) : List ℕ := entries.filterMap Entry.elem

def World.Carried (s : World) (n : ℕ) : Prop := ∃ a, (s.queue.pcs a).carried = some (some n)

/-- Where an array is that has not been deleted. -/
def World.Kept (s : World) (n : ℕ) : Prop :=
  s.Carried n ∨ n ∈ arrays s.queue.q ∨ n ∈ arrays s.queue.loop.current ∨
    n ∈ arrays (s.queue.lost.map Prod.snd) ∨ n ∈ s.refused

/-- What the log says of the arrays. -/
structure Booked (s : World) : Prop where
  acquired : acquired s.log = List.range s.next
  released : released s.log = arrays s.queue.executed
  live : ∃ live, execute ∅ s.log = some live ∧
    ∀ n, n ∈ live ↔ n < s.next ∧ n ∉ arrays s.queue.executed

/-- Every array is captured by one task, which a caller carries, or which has been
pushed or refused. -/
structure Placed (s : World) : Prop where
  distinct : (arrays s.queue.pushed).Nodup
  pushed : ∀ n ∈ arrays s.queue.pushed, n < s.next ∧ n ∉ s.refused
  carried : ∀ a n, (s.queue.pcs a).carried = some (some n) →
    n < s.next ∧ n ∉ arrays s.queue.pushed ∧ n ∉ s.refused
  alone : ∀ a b n, (s.queue.pcs a).carried = some (some n) →
    (s.queue.pcs b).carried = some (some n) → a = b
  refused : ∀ n ∈ s.refused, n < s.next
  traced : ∀ n < s.next, n ∈ arrays s.queue.pushed ∨ n ∈ s.refused ∨ s.Carried n

structure Custody (s : World) : Prop where
  queue : Reach AsyncQueue.step always AsyncQueue.init s.queue
  booked : Booked s
  placed : Placed s

theorem init_custody : Custody init where
  queue := Reach.refl _
  booked := ⟨rfl, rfl, ∅, rfl, by simp [init]⟩
  placed := {
    distinct := List.nodup_nil
    pushed := fun n h => by cases h
    carried := fun a n h => by cases h
    alone := fun a b n h => by cases h
    refused := fun n h => by cases h
    traced := fun n h => absurd h (Nat.not_lt_zero n) }

section Places

variable {s t : World}

theorem places_perm (h : Reach AsyncQueue.step always AsyncQueue.init s.queue) :
    (arrays s.queue.executed ++ arrays s.queue.loop.current ++
      arrays (s.queue.lost.map Prod.snd) ++ arrays s.queue.q).Perm (arrays s.queue.pushed) := by
  have hperm := (reach_queue_sound h).conserved.filterMap Entry.elem
  have hexec := (reach_kept h).executed
  simp only [ledger, ← hexec, List.filterMap_append] at hperm
  exact hperm

theorem Custody.places_nodup (h : Custody s) :
    (arrays s.queue.executed ++ (arrays s.queue.loop.current ++
      (arrays (s.queue.lost.map Prod.snd) ++ arrays s.queue.q))).Nodup := by
  simpa only [List.append_assoc] using (places_perm h.queue).nodup_iff.mpr h.placed.distinct

theorem Custody.pushed_iff (h : Custody s) (n : ℕ) :
    n ∈ arrays s.queue.pushed ∧ n ∉ arrays s.queue.executed ↔
      n ∈ arrays s.queue.loop.current ∨ n ∈ arrays (s.queue.lost.map Prod.snd) ∨
        n ∈ arrays s.queue.q := by
  have hapart := (List.nodup_append'.mp h.places_nodup).2.2
  rw [← (places_perm h.queue).mem_iff]
  simp only [List.append_assoc, List.mem_append]
  constructor
  · rintro ⟨hexec | hrest, hnot⟩
    · exact absurd hexec hnot
    · exact hrest
  · intro hrest
    refine ⟨Or.inr hrest, fun hexec => hapart hexec ?_⟩
    simpa only [List.mem_append] using hrest

theorem Custody.executed_pushed (h : Custody s) {n : ℕ} (hn : n ∈ arrays s.queue.executed) :
    n ∈ arrays s.queue.pushed := by
  rw [← (places_perm h.queue).mem_iff]
  simp [hn]

theorem Custody.kept_iff (h : Custody s) (n : ℕ) :
    n < s.next ∧ n ∉ arrays s.queue.executed ↔ s.Kept n := by
  have hpushed := h.pushed_iff n
  constructor
  · rintro ⟨hlt, hnot⟩
    rcases h.placed.traced n hlt with hp | hr | hc
    · rcases hpushed.mp ⟨hp, hnot⟩ with hcur | hlost | hq
      · exact Or.inr (Or.inr (Or.inl hcur))
      · exact Or.inr (Or.inr (Or.inr (Or.inl hlost)))
      · exact Or.inr (Or.inl hq)
    · exact Or.inr (Or.inr (Or.inr (Or.inr hr)))
    · exact Or.inl hc
  · intro hkept
    have hplaced : n ∈ arrays s.queue.pushed ∧ n ∉ arrays s.queue.executed →
        n < s.next ∧ n ∉ arrays s.queue.executed :=
      fun hp => ⟨(h.placed.pushed n hp.1).1, hp.2⟩
    rcases hkept with ⟨a, ha⟩ | hq | hcur | hlost | hr
    · obtain ⟨hlt, hnot, -⟩ := h.placed.carried a n ha
      exact ⟨hlt, fun hexec => hnot (h.executed_pushed hexec)⟩
    · exact hplaced (hpushed.mpr (Or.inr (Or.inr hq)))
    · exact hplaced (hpushed.mpr (Or.inl hcur))
    · exact hplaced (hpushed.mpr (Or.inr (Or.inl hlost)))
    · exact ⟨h.placed.refused n hr,
        fun hexec => (h.placed.pushed n (h.executed_pushed hexec)).2 hr⟩

end Places

section Steps

variable {s t : World}

theorem Booked.kept (h : Booked s) (hexec : t.queue.executed = s.queue.executed)
    (hnext : t.next = s.next) (hlog : t.log = s.log) : Booked t := by
  obtain ⟨hacq, hrel, hlive⟩ := h
  rw [← hnext, ← hlog] at hacq
  rw [← hexec, ← hlog] at hrel
  rw [← hexec, ← hlog, ← hnext] at hlive
  exact ⟨hacq, hrel, hlive⟩

theorem Booked.allocate (h : Booked s) (hfresh : s.next ∉ arrays s.queue.executed)
    (hexec : t.queue.executed = s.queue.executed) (hnext : t.next = s.next+1)
    (hlog : t.log = s.log ++ [.acquire s.next]) : Booked t := by
  obtain ⟨live, hlive, hmem⟩ := h.live
  refine ⟨?_, ?_, insert s.next live, ?_, ?_⟩
  · rw [hlog, acquired_append, h.acquired, hnext, List.range_succ]
    rfl
  · rw [hlog, released_append, h.released, hexec]
    exact List.append_nil _
  · have hnot : s.next ∉ live := fun hin => absurd ((hmem s.next).mp hin).1 (Nat.lt_irrefl _)
    rw [hlog, execute_append, hlive, Option.bind_some, execute_cons, step_acquire.mpr ⟨hnot, rfl⟩]
    rfl
  · intro n
    rw [Finset.mem_insert, hmem, hnext, hexec]
    constructor
    · rintro (rfl | ⟨hlt, hnot⟩)
      · exact ⟨Nat.lt_succ_self _, hfresh⟩
      · exact ⟨by omega, hnot⟩
    · rintro ⟨hlt, hnot⟩
      by_cases hn : n = s.next
      · exact Or.inl hn
      · exact Or.inr ⟨by omega, hnot⟩

theorem Booked.delete (h : Booked s) {e : Entry Captured} {n : ℕ} (he : e.elem = some n)
    (hn : n < s.next ∧ n ∉ arrays s.queue.executed)
    (hexec : t.queue.executed = s.queue.executed ++ [e]) (hnext : t.next = s.next)
    (hlog : t.log = s.log ++ [.release n]) : Booked t := by
  obtain ⟨live, hlive, hmem⟩ := h.live
  have harrays : arrays t.queue.executed = arrays s.queue.executed ++ [n] := by
    simp [arrays, hexec, he]
  refine ⟨?_, ?_, live.erase n, ?_, ?_⟩
  · rw [hlog, acquired_append, h.acquired, hnext]
    exact List.append_nil _
  · rw [hlog, released_append, h.released, harrays]
    rfl
  · rw [hlog, execute_append, hlive, Option.bind_some, execute_cons,
      step_release.mpr ⟨(hmem n).mpr hn, rfl⟩]
    rfl
  · intro m
    rw [Finset.mem_erase, hmem, hnext, harrays]
    simp only [List.mem_append, List.mem_singleton, not_or]
    exact ⟨fun ⟨hne, hlt, hnot⟩ => ⟨hlt, hnot, hne⟩, fun ⟨hlt, hnot, hne⟩ => ⟨hne, hlt, hnot⟩⟩

theorem Placed.kept (h : Placed s) (hnext : t.next = s.next) (hrefused : t.refused = s.refused)
    (hpushed : t.queue.pushed = s.queue.pushed)
    (hcarried : ∀ a n, (t.queue.pcs a).carried = some (some n) ↔
      (s.queue.pcs a).carried = some (some n)) : Placed t := by
  refine ⟨?_, ?_, ?_, ?_, ?_, ?_⟩
  · rw [hpushed]
    exact h.distinct
  · rw [hpushed, hnext, hrefused]
    exact h.pushed
  · intro a n ha
    rw [hpushed, hnext, hrefused]
    exact h.carried a n ((hcarried a n).mp ha)
  · intro a b n ha hb
    exact h.alone a b n ((hcarried a n).mp ha) ((hcarried b n).mp hb)
  · rw [hrefused, hnext]
    exact h.refused
  · intro n hn
    rw [hnext] at hn
    rw [hpushed, hrefused]
    rcases h.traced n hn with hp | hr | ⟨a, ha⟩
    · exact Or.inl hp
    · exact Or.inr (Or.inl hr)
    · exact Or.inr (Or.inr ⟨a, (hcarried a n).mpr ha⟩)

theorem Placed.refuse (h : Placed s) (hqueue : t.queue = s.queue) (hnext : t.next = s.next+1)
    (hrefused : t.refused = s.refused ++ [s.next]) : Placed t := by
  refine ⟨?_, ?_, ?_, ?_, ?_, ?_⟩
  · rw [hqueue]
    exact h.distinct
  · intro n hn
    rw [hqueue] at hn
    obtain ⟨hlt, hnot⟩ := h.pushed n hn
    rw [hnext, hrefused]
    simp only [List.mem_append, List.mem_singleton, not_or]
    exact ⟨by omega, hnot, by omega⟩
  · intro a n ha
    rw [hqueue] at ha ⊢
    obtain ⟨hlt, hp, hnot⟩ := h.carried a n ha
    rw [hnext, hrefused]
    simp only [List.mem_append, List.mem_singleton, not_or]
    exact ⟨by omega, hp, hnot, by omega⟩
  · intro a b n ha hb
    rw [hqueue] at ha hb
    exact h.alone a b n ha hb
  · intro n hn
    rw [hrefused] at hn
    rw [hnext]
    rcases List.mem_append.mp hn with hold | hnew
    · have hlt := h.refused n hold
      omega
    · obtain rfl := List.mem_singleton.mp hnew
      omega
  · intro n hn
    rw [hnext] at hn
    rw [hqueue, hrefused]
    by_cases hnew : n = s.next
    · subst hnew
      simp
    · rcases h.traced n (by omega) with hp | hr | ⟨a, ha⟩
      · exact Or.inl hp
      · exact Or.inr (Or.inl (List.mem_append_left _ hr))
      · exact Or.inr (Or.inr ⟨a, by rw [hqueue]; exact ha⟩)

theorem Placed.carry (h : Placed s) {a : Actor} (hidle : (s.queue.pcs a).carried = none)
    (hqueue : t.queue = s.queue.setPc a (.checked (some s.next))) (hnext : t.next = s.next+1)
    (hrefused : t.refused = s.refused) : Placed t := by
  have hcarried : ∀ b n, (t.queue.pcs b).carried = some (some n) ↔
      b = a ∧ n = s.next ∨ b ≠ a ∧ (s.queue.pcs b).carried = some (some n) := by
    intro b n
    rw [hqueue]
    by_cases hb : b = a
    · subst hb
      simp [Pc.carried, eq_comm]
    · simp [setPc_other _ a b _ hb, hb]
  have hpushed : t.queue.pushed = s.queue.pushed := by rw [hqueue]; rfl
  refine ⟨?_, ?_, ?_, ?_, ?_, ?_⟩
  · rw [hpushed]
    exact h.distinct
  · intro n hn
    rw [hpushed] at hn
    obtain ⟨hlt, hnot⟩ := h.pushed n hn
    rw [hnext, hrefused]
    exact ⟨by omega, hnot⟩
  · intro b n hb
    rw [hpushed, hnext, hrefused]
    rcases (hcarried b n).mp hb with ⟨-, rfl⟩ | ⟨-, hold⟩
    · exact ⟨by omega, fun hp => absurd (h.pushed _ hp).1 (Nat.lt_irrefl _),
        fun hr => absurd (h.refused _ hr) (Nat.lt_irrefl _)⟩
    · obtain ⟨hlt, hp, hr⟩ := h.carried b n hold
      exact ⟨by omega, hp, hr⟩
  · intro b c n hb hc
    rcases (hcarried b n).mp hb with ⟨rfl, rfl⟩ | ⟨-, hb⟩ <;>
      rcases (hcarried c _).mp hc with ⟨rfl, hn⟩ | ⟨-, hc⟩
    · rfl
    · exact absurd (h.carried c _ hc).1 (Nat.lt_irrefl _)
    · subst hn
      exact absurd (h.carried b _ hb).1 (Nat.lt_irrefl _)
    · exact h.alone b c n hb hc
  · intro n hn
    rw [hrefused] at hn
    rw [hnext]
    have hlt := h.refused n hn
    omega
  · intro n hn
    rw [hnext] at hn
    rw [hpushed, hrefused]
    by_cases hnew : n = s.next
    · exact Or.inr (Or.inr ⟨a, (hcarried a n).mpr (Or.inl ⟨rfl, hnew⟩)⟩)
    · rcases h.traced n (by omega) with hp | hr | ⟨b, hb⟩
      · exact Or.inl hp
      · exact Or.inr (Or.inl hr)
      · have hne : b ≠ a := by
          rintro rfl
          rw [hidle] at hb
          cases hb
        exact Or.inr (Or.inr ⟨b, (hcarried b n).mpr (Or.inr ⟨hne, hb⟩)⟩)

theorem Placed.push (h : Placed s) {a : Actor} {e : Entry Captured}
    (ha : (s.queue.pcs a).carried = some e.elem) (hnext : t.next = s.next)
    (hrefused : t.refused = s.refused) (hpushed : t.queue.pushed = s.queue.pushed ++ [e])
    (hnone : (t.queue.pcs a).carried = none)
    (hother : ∀ b, b ≠ a → (t.queue.pcs b).carried = (s.queue.pcs b).carried) : Placed t := by
  have hcarried : ∀ b n, (t.queue.pcs b).carried = some (some n) →
      b ≠ a ∧ (s.queue.pcs b).carried = some (some n) := by
    intro b n hb
    have hne : b ≠ a := by
      rintro rfl
      rw [hnone] at hb
      cases hb
    exact ⟨hne, by rw [← hother b hne]; exact hb⟩
  have harrays : arrays t.queue.pushed = arrays s.queue.pushed ++ e.elem.toList := by
    rw [hpushed, arrays, List.filterMap_append, ← arrays]
    cases he : e.elem <;> simp [he]
  have hown : ∀ n ∈ e.elem.toList, (s.queue.pcs a).carried = some (some n) := by
    intro n hn
    rw [ha, Option.mem_toList.mp hn]
  refine ⟨?_, ?_, ?_, ?_, ?_, ?_⟩
  · rw [harrays, List.nodup_append']
    refine ⟨h.distinct, by cases e.elem <;> simp, ?_⟩
    intro n hold hnew
    exact (h.carried a n (hown n hnew)).2.1 hold
  · intro n hn
    rw [hnext, hrefused]
    rw [harrays] at hn
    rcases List.mem_append.mp hn with hold | hnew
    · exact h.pushed n hold
    · obtain ⟨hlt, -, hr⟩ := h.carried a n (hown n hnew)
      exact ⟨hlt, hr⟩
  · intro b n hb
    obtain ⟨hne, hold⟩ := hcarried b n hb
    obtain ⟨hlt, hp, hr⟩ := h.carried b n hold
    rw [hnext, hrefused, harrays]
    refine ⟨hlt, fun hn => ?_, hr⟩
    rcases List.mem_append.mp hn with hp' | hnew
    · exact hp hp'
    · exact hne (h.alone b a n hold (hown n hnew))
  · intro b c n hb hc
    exact h.alone b c n (hcarried b n hb).2 (hcarried c n hc).2
  · rw [hrefused, hnext]
    exact h.refused
  · intro n hn
    rw [hnext] at hn
    rw [harrays, hrefused, List.mem_append]
    rcases h.traced n hn with hp | hr | ⟨b, hb⟩
    · exact Or.inl (Or.inl hp)
    · exact Or.inr (Or.inl hr)
    · by_cases hba : b = a
      · rw [hba, ha] at hb
        exact Or.inl (Or.inr (Option.mem_toList.mpr (Option.some.inj hb)))
      · exact Or.inr (Or.inr ⟨b, by rw [hother b hba]; exact hb⟩)

theorem call_executed {q : AsyncQueue.State Captured} {a : Actor} {e : Captured}
    (h : AsyncQueue.step s.queue (.call a e) = some q) : q.executed = s.queue.executed := by
  rcases step_executed h with ⟨_, he, -⟩ | ⟨-, hexec⟩
  · cases he
  · exact hexec

theorem Custody.onGetMembers (h : Custody s) {caller : Actor}
    (hs : step s (.onGetMembers caller) = some t) : Custody t := by
  obtain ⟨q, hq, rfl⟩ := Option.map_eq_some_iff.mp hs
  have hfresh : s.next ∉ arrays s.queue.executed := fun hexec =>
    absurd (h.placed.pushed _ (h.executed_pushed hexec)).1 (Nat.lt_irrefl _)
  refine ⟨h.queue.tail trivial hq, h.booked.allocate hfresh (call_executed hq) rfl rfl, ?_⟩
  rcases call_cases hq with ⟨hidle, ⟨hclosed, rfl⟩ | ⟨hopen, rfl⟩⟩
  · exact h.placed.refuse rfl rfl (by simp [hclosed])
  · exact h.placed.carry (by rw [hidle]; rfl) rfl rfl (by simp [hopen])

theorem Custody.otherCallback (h : Custody s) {caller : Actor}
    (hs : step s (.otherCallback caller) = some t) : Custody t := by
  obtain ⟨q, hq, rfl⟩ := Option.map_eq_some_iff.mp hs
  refine ⟨h.queue.tail trivial hq, h.booked.kept (call_executed hq) rfl rfl, ?_⟩
  rcases call_cases hq with ⟨hidle, ⟨-, rfl⟩ | ⟨-, rfl⟩⟩
  · exact h.placed
  · refine h.placed.kept rfl rfl rfl fun a n => ?_
    by_cases ha : a = caller
    · subst ha
      simp [hidle, Pc.carried]
    · rw [setPc_other _ caller a _ ha]

theorem Custody.queueStep (h : Custody s) {b : AsyncQueue.Action Captured}
    {q : AsyncQueue.State Captured} (hb : ∀ a e, b ≠ .call a e)
    (hq : AsyncQueue.step s.queue b = some q) :
    Custody { s with queue := q, log := s.log ++ deleted s b } := by
  refine ⟨h.queue.tail trivial hq, ?_, ?_⟩
  · rcases step_executed hq with ⟨e, rfl, hl, hexec⟩ | ⟨hne, hexec⟩
    · cases he : e.elem with
      | none =>
        obtain ⟨hacq, hrel, hlive⟩ := h.booked
        have harrays : arrays q.executed = arrays s.queue.executed := by
          simp [arrays, hexec, he]
        have hlog : s.log ++ deleted s .finish = s.log := by simp [deleted, hl, he]
        refine ⟨?_, ?_, ?_⟩
        · rw [hlog]
          exact hacq
        · rw [hlog, harrays]
          exact hrel
        · rw [hlog, harrays]
          exact hlive
      | some n =>
        have hcurrent : n ∈ arrays s.queue.loop.current := by
          simp [hl, LoopPc.current, arrays, he]
        have hkept := (h.kept_iff n).mpr (Or.inr (Or.inr (Or.inl hcurrent)))
        exact h.booked.delete he hkept hexec rfl (by simp [deleted, hl, he])
    · have hnil : deleted s b = [] := by cases b <;> first | rfl | exact absurd rfl hne
      exact h.booked.kept hexec rfl (by rw [hnil, List.append_nil])
  · rcases step_carried hq with ⟨a, e, rfl⟩ | ⟨a, e, -, ha, hpushed, hnone, hother⟩ |
      ⟨hpushed, hsame⟩
    · exact absurd rfl (hb a e)
    · exact h.placed.push (e := ⟨s.queue.pushed.length, e⟩) ha rfl rfl hpushed hnone hother
    · exact h.placed.kept rfl rfl hpushed fun a n => by rw [hsame a]

theorem step_custody (s : World) (a : Action) (t : World) (h : Custody s)
    (hs : step s a = some t) : Custody t := by
  cases a with
  | onGetMembers caller => exact h.onGetMembers hs
  | otherCallback caller => exact h.otherCallback hs
  | queue b =>
    have hb : ∀ a e, b ≠ .call a e := by
      rintro a e rfl
      cases hs
    have hmap : (AsyncQueue.step s.queue b).map
        (fun q => { s with queue := q, log := s.log ++ deleted s b }) = some t := by
      cases b <;> first | exact hs | exact absurd rfl (hb _ _)
    obtain ⟨q, hq, rfl⟩ := Option.map_eq_some_iff.mp hmap
    exact h.queueStep hb hq

end Steps

theorem reach_custody {ok : World → Action → Prop} {s : World} (h : Reach step ok init s) :
    Custody s :=
  h.invariant init_custody fun s a t hs _ ht => step_custody s a t hs ht

/-- The use that the handlers make of the queue of `node_async_call`, which nobody
limits, clears or closes. -/
def Serving (_ : World) : Action → Prop
  | .queue (.setCapacity c) => c = 0
  | .queue (.clear _) | .queue .close => False
  | _ => True

instance (s : World) : (a : Action) → Decidable (Serving s a)
  | .queue (.setCapacity c) => inferInstanceAs (Decidable (c = 0))
  | .queue (.clear _) | .queue .close => inferInstanceAs (Decidable False)
  | .onGetMembers _ | .otherCallback _ | .queue (.call ..) | .queue (.enter _) | .queue (.push _)
  | .queue (.send _) | .queue .wake | .queue .acquire | .queue .test | .queue .finish
  | .queue .leave => inferInstanceAs (Decidable True)

structure Served (s : World) : Prop where
  queue : Reach AsyncQueue.step Plain AsyncQueue.init s.queue
  opened : s.queue.closed = false
  refused : s.refused = []

theorem step_served (s : World) (a : Action) (t : World) (h : Served s) (ha : Serving s a)
    (hs : step s a = some t) : Served t := by
  have hmoved : ∀ b q, Plain s.queue b → b ≠ .close → AsyncQueue.step s.queue b = some q →
      Reach AsyncQueue.step Plain AsyncQueue.init q ∧ q.closed = false := by
    intro b q hplain hb hq
    refine ⟨h.queue.tail hplain hq, ?_⟩
    rcases step_closed hq with hsame | ⟨hclose, -⟩
    · exact hsame.trans h.opened
    · exact absurd hclose hb
  cases a with
  | onGetMembers caller =>
    obtain ⟨q, hq, rfl⟩ := Option.map_eq_some_iff.mp hs
    obtain ⟨hreach, hopen⟩ := hmoved (.call caller (some s.next)) q trivial (by simp) hq
    exact ⟨hreach, hopen, by simp [h.opened, h.refused]⟩
  | otherCallback caller =>
    obtain ⟨q, hq, rfl⟩ := Option.map_eq_some_iff.mp hs
    obtain ⟨hreach, hopen⟩ := hmoved (.call caller none) q trivial (by simp) hq
    exact ⟨hreach, hopen, h.refused⟩
  | queue b =>
    have hplain : Plain s.queue b ∧ b ≠ .close := by
      cases b with
      | clear a => exact ha.elim
      | close => exact ha.elim
      | setCapacity c => exact ⟨ha, by simp⟩
      | _ => exact ⟨trivial, by simp⟩
    have hmap : (AsyncQueue.step s.queue b).map
        (fun q => { s with queue := q, log := s.log ++ deleted s b }) = some t := by
      cases b <;> first | exact hs | cases hs
    obtain ⟨q, hq, rfl⟩ := Option.map_eq_some_iff.mp hmap
    obtain ⟨hreach, hopen⟩ := hmoved b q hplain.1 hplain.2 hq
    exact ⟨hreach, hopen, h.refused⟩

/-- No array is deleted twice or before it is allocated. One that has not been
deleted is still with its caller, in the queue or with the running task, or its
task was dropped from the queue or refused by it. In the use of `node_async_call`
these last do not occur, and all arrays are deleted when the queue is at rest. -/
theorem member_arrays_deleted :
    (∀ s, Reach step always init s →
      acquired s.log = List.range s.next ∧ released s.log = arrays s.queue.executed ∧
      ∃ live, execute ∅ s.log = some live ∧ ∀ n, n ∈ live ↔ s.Kept n) ∧
    (∀ s, Reach step Serving init s →
      (∀ n, s.Kept n ↔ s.Carried n ∨ n ∈ arrays s.queue.q ∨ n ∈ arrays s.queue.loop.current) ∧
      ((∀ a, s.queue.pcs a = .idle) → s.queue.pending = false → s.queue.loop = .idle →
        Balanced s.log)) := by
  constructor
  · intro s h
    have hcustody := reach_custody h
    obtain ⟨live, hlive, hmem⟩ := hcustody.booked.live
    refine ⟨hcustody.booked.acquired, hcustody.booked.released, live, hlive, fun n => ?_⟩
    rw [hmem, hcustody.kept_iff]
  · intro s h
    have hcustody := reach_custody h
    have hserved : Served s := h.invariant ⟨Reach.refl _, rfl, rfl⟩ step_served
    have hlost := (reach_lossless hserved.queue).lost
    refine ⟨fun n => ?_, ?_⟩
    · simp [World.Kept, hlost, hserved.refused, arrays]
    · intro hcallers hpending hloop
      have hexec := rest_executed hserved.queue hcallers hpending hloop
      obtain ⟨live, hlive, hmem⟩ := hcustody.booked.live
      have hleaves : Leaves s.log live :=
        ⟨by rw [hcustody.booked.acquired]; exact List.nodup_range, hlive⟩
      rw [hleaves.balanced_iff, Finset.eq_empty_iff_forall_notMem]
      intro n hn
      obtain ⟨hlt, hnot⟩ := (hmem n).mp hn
      rcases hcustody.placed.traced n hlt with hp | hr | ⟨a, ha⟩
      · rw [← hexec] at hp
        exact hnot hp
      · rw [hserved.refused] at hr
        cases hr
      · rw [hcallers a] at ha
        cases ha

-- Two lists of members arrive while the first task runs.
def twoLists : List Action :=
  [.onGetMembers (.producer 0), .queue (.enter (.producer 0)), .queue (.push (.producer 0)),
    .queue (.send (.producer 0)), .queue .wake, .queue .acquire, .queue .test,
    .onGetMembers (.producer 1), .queue (.enter (.producer 1)), .queue (.push (.producer 1)),
    .queue .finish]

def twoListsDrained : List Action :=
  twoLists ++ [.queue .acquire, .queue .test, .queue .finish, .queue (.send (.producer 1)),
    .queue .acquire, .queue .test, .queue .leave, .queue .wake, .queue .acquire, .queue .test,
    .queue .leave]

theorem member_arrays_deleted_two_lists :
    released (final step always init twoLists).log = [0] ∧
    (final step always init twoLists).Kept 1 ∧
    Balanced (final step Serving init twoListsDrained).log := by
  obtain ⟨-, hreleased, live, hlive, hmem⟩ :=
    member_arrays_deleted.1 (final step always init twoLists) (reach_final rfl)
  refine ⟨hreleased, (hmem 1).mp ?_, ?_⟩
  · obtain rfl := Option.some.inj hlive
    decide
  · exact (member_arrays_deleted.2 (final step Serving init twoListsDrained) (reach_final rfl)).2
      (by rintro ((_ | _ | n) | _) <;> rfl) rfl rfl

end AgoraRtm.MemberArrays
