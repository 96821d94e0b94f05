import AgoraRtm.Runs
import Mathlib.Data.Finset.Image
import Mathlib.Data.Finset.Card

/-!
# Ownership of objects

What a program does with the objects that it owns: it acquires one, releases it
or hands it over. A log of such deeds is a run on the set of live objects. It
stops at an object that is acquired while it is live, or given up while it is
not, so that nothing is given up twice in a run that goes through. The frame
rule adds objects that a log does not speak of.
-/

set_option autoImplicit false

namespace Ownership
open Runs

variable {ρ κ : Type*}

inductive Deed (ρ : Type*) where
  | acquire (r : ρ)
  | release (r : ρ)
  | handOver (r : ρ)

namespace Deed

def resource : Deed ρ → ρ
  | acquire r => r
  | release r => r
  | handOver r => r

def map (f : ρ → κ) : Deed ρ → Deed κ
  | acquire r => acquire (f r)
  | release r => release (f r)
  | handOver r => handOver (f r)

end Deed

def acquired (log : List (Deed ρ)) : List ρ :=
  log.filterMap fun
    | .acquire r => some r
    | _ => none

def released (log : List (Deed ρ)) : List ρ :=
  log.filterMap fun
    | .release r => some r
    | _ => none

def handedOver (log : List (Deed ρ)) : List ρ :=
  log.filterMap fun
    | .handOver r => some r
    | _ => none

def resources (log : List (Deed ρ)) : List ρ := log.map Deed.resource

/-- What is acquired and not handed over is released exactly once. -/
def Balanced [DecidableEq ρ] (log : List (Deed ρ)) : Prop :=
  ∀ r ∈ acquired log, r ∉ handedOver log → (released log).count r = 1

def step [DecidableEq ρ] (live : Finset ρ) : Deed ρ → Option (Finset ρ)
  | .acquire r => if r ∈ live then none else some (insert r live)
  | .release r => if r ∈ live then some (live.erase r) else none
  | .handOver r => if r ∈ live then some (live.erase r) else none

def execute [DecidableEq ρ] (live : Finset ρ) (log : List (Deed ρ)) : Option (Finset ρ) :=
  run step always live log

section Logs

theorem acquired_append (l m : List (Deed ρ)) : acquired (l ++ m) = acquired l ++ acquired m :=
  List.filterMap_append

theorem released_append (l m : List (Deed ρ)) : released (l ++ m) = released l ++ released m :=
  List.filterMap_append

theorem handedOver_append (l m : List (Deed ρ)) :
    handedOver (l ++ m) = handedOver l ++ handedOver m :=
  List.filterMap_append

theorem resources_append (l m : List (Deed ρ)) : resources (l ++ m) = resources l ++ resources m :=
  List.map_append

theorem acquired_sub (log : List (Deed ρ)) {r : ρ} (h : r ∈ acquired log) : r ∈ resources log := by
  obtain ⟨d, hd, hr⟩ := List.mem_filterMap.mp h
  cases d with
  | acquire r' =>
    obtain rfl := Option.some.inj hr
    exact List.mem_map_of_mem hd
  | release r' => cases hr
  | handOver r' => cases hr

theorem acquired_map (f : ρ → κ) (log : List (Deed ρ)) :
    acquired (log.map (Deed.map f)) = (acquired log).map f := by
  induction log with
  | nil => rfl
  | cons d log ih => cases d <;> simp_all [acquired, Deed.map]

theorem resources_map (f : ρ → κ) (log : List (Deed ρ)) :
    resources (log.map (Deed.map f)) = (resources log).map f := by
  rw [resources, resources, List.map_map, List.map_map]
  apply List.map_congr_left
  intro d _
  cases d <;> rfl

end Logs

variable [DecidableEq ρ] [DecidableEq κ]

section Rules

variable {s t live : Finset ρ} {log : List (Deed ρ)}

@[simp] theorem execute_nil (live : Finset ρ) : execute live [] = some live := rfl

theorem execute_cons (live : Finset ρ) (d : Deed ρ) (log : List (Deed ρ)) :
    execute live (d :: log) = (step live d).bind fun live => execute live log := by
  simp [execute, run, always]

theorem execute_append (live : Finset ρ) (l m : List (Deed ρ)) :
    execute live (l ++ m) = (execute live l).bind fun live => execute live m :=
  run_append live l m

theorem step_acquire {r : ρ} : step s (.acquire r) = some t ↔ r ∉ s ∧ insert r s = t := by
  by_cases hr : r ∈ s <;> simp [step, hr]

theorem step_release {r : ρ} : step s (.release r) = some t ↔ r ∈ s ∧ s.erase r = t := by
  by_cases hr : r ∈ s <;> simp [step, hr]

theorem step_handOver {r : ρ} : step s (.handOver r) = some t ↔ r ∈ s ∧ s.erase r = t :=
  step_release

theorem step_frame {d : Deed ρ} (h : step s d = some t) {frame : Finset ρ}
    (hframe : d.resource ∉ frame) : step (s ∪ frame) d = some (t ∪ frame) := by
  have herase : ∀ r, r ∉ frame → s.erase r ∪ frame = (s ∪ frame).erase r := by
    intro r hr
    rw [Finset.erase_union_distrib, Finset.erase_eq_of_notMem hr]
  cases d with
  | acquire r =>
    obtain ⟨hr, rfl⟩ := step_acquire.mp h
    rw [step_acquire]
    exact ⟨Finset.notMem_union.mpr ⟨hr, hframe⟩, (Finset.insert_union r s frame).symm⟩
  | release r =>
    obtain ⟨hr, rfl⟩ := step_release.mp h
    exact step_release.mpr ⟨Finset.mem_union_left _ hr, (herase r hframe).symm⟩
  | handOver r =>
    obtain ⟨hr, rfl⟩ := step_handOver.mp h
    exact step_handOver.mpr ⟨Finset.mem_union_left _ hr, (herase r hframe).symm⟩

/-- The frame rule: other objects stay as they are. -/
theorem execute_frame (h : execute s log = some t) {frame : Finset ρ}
    (hframe : ∀ r ∈ resources log, r ∉ frame) :
    execute (s ∪ frame) log = some (t ∪ frame) := by
  induction log generalizing s with
  | nil =>
    obtain rfl := Option.some.inj h
    rfl
  | cons d log ih =>
    rw [execute_cons] at h ⊢
    obtain ⟨u, hu, ht⟩ := Option.bind_eq_some_iff.mp h
    rw [step_frame hu (hframe d.resource (by simp [resources]))]
    exact ih ht fun r hr => hframe r (List.mem_cons_of_mem _ hr)

/-- Of an object that is live, one more has been acquired than given up. -/
def owned (live : Finset ρ) (r : ρ) : ℕ := if r ∈ live then 1 else 0

theorem step_count {d : Deed ρ} (h : step s d = some t) (r : ρ) :
    owned s r + (acquired [d]).count r =
      owned t r + (released [d]).count r + (handedOver [d]).count r := by
  cases d with
  | acquire r' =>
    obtain ⟨hr, rfl⟩ := step_acquire.mp h
    by_cases he : r = r'
    · subst he
      simp [owned, hr, acquired, released, handedOver]
    · simp [owned, he, Ne.symm he, acquired, released, handedOver]
  | release r' =>
    obtain ⟨hr, rfl⟩ := step_release.mp h
    by_cases he : r = r'
    · subst he
      simp [owned, hr, acquired, released, handedOver]
    · simp [owned, he, Ne.symm he, acquired, released, handedOver]
  | handOver r' =>
    obtain ⟨hr, rfl⟩ := step_handOver.mp h
    by_cases he : r = r'
    · subst he
      simp [owned, hr, acquired, released, handedOver]
    · simp [owned, he, Ne.symm he, acquired, released, handedOver]

theorem execute_count (h : execute s log = some t) (r : ρ) :
    owned s r + (acquired log).count r =
      owned t r + (released log).count r + (handedOver log).count r := by
  induction log generalizing s with
  | nil =>
    obtain rfl := Option.some.inj h
    simp [acquired, released, handedOver]
  | cons d log ih =>
    rw [execute_cons] at h
    obtain ⟨u, hu, ht⟩ := Option.bind_eq_some_iff.mp h
    have hd := step_count hu r
    have hrest := ih ht
    rw [← List.singleton_append, acquired_append, released_append, handedOver_append,
      List.count_append, List.count_append, List.count_append]
    omega

theorem step_foreign {d : Deed ρ} (h : step s d = some t) {r : ρ} (hr : r ≠ d.resource) :
    r ∈ t ↔ r ∈ s := by
  cases d with
  | acquire r' =>
    obtain ⟨-, rfl⟩ := step_acquire.mp h
    exact Finset.mem_insert.trans (or_iff_right hr)
  | release r' =>
    obtain ⟨-, rfl⟩ := step_release.mp h
    exact Finset.mem_erase.trans (and_iff_right hr)
  | handOver r' =>
    obtain ⟨-, rfl⟩ := step_handOver.mp h
    exact Finset.mem_erase.trans (and_iff_right hr)

theorem execute_foreign (h : execute s log = some t) {r : ρ} (hr : r ∉ resources log) :
    r ∈ t ↔ r ∈ s := by
  induction log generalizing s with
  | nil =>
    obtain rfl := Option.some.inj h
    rfl
  | cons d log ih =>
    rw [execute_cons] at h
    obtain ⟨u, hu, ht⟩ := Option.bind_eq_some_iff.mp h
    obtain ⟨hd, hlog⟩ := not_or.mp fun hmem => hr (List.mem_cons.mpr hmem)
    exact (ih ht hlog).trans (step_foreign hu hd)

theorem execute_around (h : execute s log = some t) {r : ρ} (hs : r ∉ s)
    (hr : r ∉ resources log) :
    execute s (.acquire r :: log ++ [.release r]) = some t := by
  have hframe : execute (insert r s) log = some (insert r t) := by
    rw [Finset.insert_eq, Finset.union_comm, Finset.insert_eq, Finset.union_comm {r} t]
    refine execute_frame h ?_
    rintro r' hr' hmem
    rw [Finset.mem_singleton.mp hmem] at hr'
    exact hr hr'
  have ht : r ∉ t := fun hmem => hs ((execute_foreign h hr).mp hmem)
  have hrelease : step (insert r t) (.release r) = some t :=
    step_release.mpr ⟨Finset.mem_insert_self r t, Finset.erase_insert ht⟩
  rw [List.cons_append, execute_cons, step_acquire.mpr ⟨hs, rfl⟩, Option.bind_some,
    execute_append, hframe, Option.bind_some, execute_cons, hrelease]
  rfl

theorem execute_apart {l m : List (Deed ρ)} (hl : execute ∅ l = some s) (hm : execute ∅ m = some t)
    (hapart : ∀ r ∈ resources m, r ∉ resources l) :
    execute ∅ (l ++ m) = some (s ∪ t) := by
  have hframe : execute (∅ ∪ s) m = some (t ∪ s) := by
    refine execute_frame hm ?_
    intro r hr hmem
    have hempty := (execute_foreign hl (hapart r hr)).mp hmem
    exact absurd hempty (Finset.notMem_empty r)
  rw [Finset.empty_union] at hframe
  rw [execute_append, hl, Option.bind_some, hframe, Finset.union_comm]

theorem execute_releases (l : List ρ) (live : Finset ρ) (hl : l.Nodup) (h : ∀ r ∈ l, r ∈ live) :
    execute live (l.map .release) = some (live \ l.toFinset) := by
  induction l generalizing live with
  | nil => simp
  | cons r l ih =>
    obtain ⟨hr, hnodup⟩ := List.nodup_cons.mp hl
    have hrest : ∀ r' ∈ l, r' ∈ live.erase r := by
      intro r' hr'
      refine Finset.mem_erase.mpr ⟨?_, h r' (List.mem_cons_of_mem r hr')⟩
      rintro rfl
      exact hr hr'
    rw [List.map_cons, execute_cons, step_release.mpr ⟨h r List.mem_cons_self, rfl⟩,
      Option.bind_some, ih _ hnodup hrest, List.toFinset_cons, Finset.sdiff_insert,
      Finset.erase_sdiff_comm]

theorem execute_map {f : ρ → κ} (hf : Function.Injective f) (h : execute s log = some t) :
    execute (s.image f) (log.map (Deed.map f)) = some (t.image f) := by
  induction log generalizing s with
  | nil =>
    obtain rfl := Option.some.inj h
    rfl
  | cons d log ih =>
    rw [execute_cons] at h
    obtain ⟨u, hu, ht⟩ := Option.bind_eq_some_iff.mp h
    have hd : step (s.image f) (d.map f) = some (u.image f) := by
      cases d with
      | acquire r =>
        obtain ⟨hr, rfl⟩ := step_acquire.mp hu
        exact step_acquire.mpr ⟨by simpa [hf.eq_iff] using hr, (Finset.image_insert f r s).symm⟩
      | release r =>
        obtain ⟨hr, rfl⟩ := step_release.mp hu
        exact step_release.mpr ⟨Finset.mem_image_of_mem f hr, (Finset.image_erase hf s r).symm⟩
      | handOver r =>
        obtain ⟨hr, rfl⟩ := step_handOver.mp hu
        exact step_handOver.mpr ⟨Finset.mem_image_of_mem f hr, (Finset.image_erase hf s r).symm⟩
    rw [List.map_cons, execute_cons, hd]
    exact ih ht

end Rules

/-- A log acquires each object once and goes through; some objects stay live. -/
structure Leaves (log : List (Deed ρ)) (live : Finset ρ) : Prop where
  once : (acquired log).Nodup
  runs : execute ∅ log = some live

section Leaving

variable {log l m : List (Deed ρ)} {live s t : Finset ρ}

theorem leaves_nil : Leaves ([] : List (Deed ρ)) ∅ := ⟨List.nodup_nil, rfl⟩

theorem leaves_acquire (r : ρ) : Leaves [.acquire r] {r} :=
  ⟨List.nodup_singleton r, by
    rw [execute_cons, step_acquire.mpr ⟨Finset.notMem_empty r, rfl⟩]
    rfl⟩

theorem leaves_handOver (r : ρ) : Leaves [.acquire r, .handOver r] ∅ :=
  ⟨List.nodup_singleton r, by
    rw [execute_cons, step_acquire.mpr ⟨Finset.notMem_empty r, rfl⟩, Option.bind_some,
      execute_cons, step_handOver.mpr ⟨Finset.mem_insert_self r ∅, rfl⟩, Option.bind_some,
      Finset.erase_insert (Finset.notMem_empty r), execute_nil]⟩

theorem Leaves.around (h : Leaves log live) {r : ρ} (hr : r ∉ resources log) :
    Leaves (.acquire r :: log ++ [.release r]) live := by
  refine ⟨?_, execute_around h.runs (Finset.notMem_empty r) hr⟩
  have hacquired : acquired (.acquire r :: log ++ [.release r]) = r :: acquired log := by
    rw [acquired_append]
    exact List.append_nil _
  rw [hacquired, List.nodup_cons]
  exact ⟨fun hmem => hr (acquired_sub log hmem), h.once⟩

theorem Leaves.append (hl : Leaves l s) (hm : Leaves m t)
    (hapart : ∀ r ∈ resources m, r ∉ resources l) : Leaves (l ++ m) (s ∪ t) := by
  refine ⟨?_, execute_apart hl.runs hm.runs hapart⟩
  rw [acquired_append, List.nodup_append']
  refine ⟨hl.once, hm.once, ?_⟩
  intro r hr hr'
  exact hapart r (acquired_sub m hr') (acquired_sub l hr)

theorem Leaves.map (h : Leaves log live) {f : ρ → κ} (hf : Function.Injective f) :
    Leaves (log.map (Deed.map f)) (live.image f) := by
  refine ⟨?_, ?_⟩
  · rw [acquired_map]
    exact h.once.map hf
  · have himage := execute_map hf h.runs
    rwa [Finset.image_empty] at himage

theorem Leaves.balanced_iff (h : Leaves log live) : Balanced log ↔ live = ∅ := by
  have hcount : ∀ r, (acquired log).count r =
      owned live r + (released log).count r + (handedOver log).count r := by
    intro r
    simpa [owned] using execute_count h.runs r
  constructor
  · intro hbalanced
    rw [Finset.eq_empty_iff_forall_notMem]
    intro r hr
    have hlive : owned live r = 1 := if_pos hr
    have hone := List.nodup_iff_count_le_one.mp h.once r
    have hr' := hcount r
    have hacquired : r ∈ acquired log := List.count_pos_iff.mp (by omega)
    have hkept : r ∉ handedOver log := List.count_eq_zero.mp (by omega)
    have hreleased := hbalanced r hacquired hkept
    omega
  · rintro rfl r hr hkept
    have hone := List.count_eq_one_of_mem h.once hr
    have hzero := List.count_eq_zero.mpr hkept
    have hr' := hcount r
    simp only [owned, Finset.notMem_empty, ↓reduceIte] at hr'
    omega

end Leaving

end Ownership
