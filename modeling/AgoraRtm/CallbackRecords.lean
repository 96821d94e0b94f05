import AgoraRtm.Registry
import AgoraRtm.Ownership
import Mathlib.Data.Finset.Card

/-!
# The records behind `m_callbacks`

`addEventHandler` allocates a `NodeEventCallback` for every registration and puts
it into the map if the map has none for the name. The destructor of a channel's
handler deletes the records that it finds in the map; a controller deletes none.
-/

set_option autoImplicit false

namespace AgoraRtm.CallbackRecords
open Runs Ownership NativeEvents Delivery Registry

/-- A handler's map from names to records, with what has been allocated. -/
structure Records where
  m_callbacks : List (String × ℕ)
  next : ℕ
  log : List (Deed ℕ)

def init : Records := ⟨[], 0, []⟩

def Records.addEventHandler (r : Records) (eventName : String) : Records where
  m_callbacks := Delivery.addEventHandler r.m_callbacks eventName r.next
  next := r.next+1
  log := r.log ++ [.acquire r.next]

def recorded (names : List String) : Records := names.foldl Records.addEventHandler init

/-- The records of a handler to its end: `~RtmChannelEventHandler` deletes what is
in the map, `~RtmServerController` nothing. -/
def destroyed (r : Records) : Kind → List (Deed ℕ)
  | .channel => r.log ++ (r.m_callbacks.map Prod.snd).map .release
  | .controller => r.log

/-- The registrations of names that had been registered before. A record is named by
its registration. -/
def repeated (names : List String) : Finset ℕ :=
  (Finset.range names.length).filter fun n => ∃ j < n, names[j]? = names[n]?

def namesOf {κ : Type} (history : List (Happening κ)) : List String :=
  history.filterMap fun
    | .registered eventName _ => some eventName
    | .ran _ _ _ => none

theorem recorded_snoc (names : List String) (eventName : String) :
    recorded (names ++ [eventName]) = (recorded names).addEventHandler eventName := by
  simp [recorded]

theorem addEventHandler_keys {κ : Type} (m_callbacks : List (String × κ)) (eventName : String)
    (callback : κ) :
    (Delivery.addEventHandler m_callbacks eventName callback).map Prod.fst =
      if eventName ∈ m_callbacks.map Prod.fst then m_callbacks.map Prod.fst
      else m_callbacks.map Prod.fst ++ [eventName] := by
  have hfound : (m_callbacks.lookup eventName).isSome = true ↔
      eventName ∈ m_callbacks.map Prod.fst := by
    rw [Option.isSome_iff_ne_none, ne_eq, List.lookup_eq_none_iff]
    simp only [bne_iff_ne, ne_eq, not_forall, not_not, List.mem_map, exists_prop]
    exact ⟨fun ⟨p, hp, hn⟩ => ⟨p, hp, hn.symm⟩, fun ⟨p, hp, hn⟩ => ⟨p, hp, hn.symm⟩⟩
  by_cases hname : eventName ∈ m_callbacks.map Prod.fst
  · rw [if_pos hname, Delivery.addEventHandler, if_pos (hfound.mpr hname)]
  · rw [if_neg hname, Delivery.addEventHandler, if_neg fun h => hname (hfound.mp h),
      List.map_append]
    rfl

structure Kept (names : List String) (r : Records) : Prop where
  next : r.next = names.length
  acquired : acquired r.log = List.range r.next
  live : execute ∅ r.log = some (Finset.range r.next)
  found : ∀ eventName, r.m_callbacks.lookup eventName = names.idxOf? eventName
  keys : (r.m_callbacks.map Prod.fst).Nodup
  names : (r.m_callbacks.map Prod.fst).toFinset = names.toFinset
  records : (r.m_callbacks.map Prod.snd).Nodup
  bounded : ∀ n ∈ r.m_callbacks.map Prod.snd, n < r.next

theorem Kept.addEventHandler {names : List String} {r : Records} (h : Kept names r)
    (eventName : String) : Kept (names ++ [eventName]) (r.addEventHandler eventName) := by
  have hkeys := addEventHandler_keys r.m_callbacks eventName r.next
  have hrecords : (r.addEventHandler eventName).m_callbacks.map Prod.snd =
      r.m_callbacks.map Prod.snd ∨ (r.addEventHandler eventName).m_callbacks.map Prod.snd =
        r.m_callbacks.map Prod.snd ++ [r.next] := by
    rw [Records.addEventHandler, Delivery.addEventHandler]
    split
    · exact Or.inl rfl
    · exact Or.inr List.map_append
  refine ⟨?_, ?_, ?_, ?_, ?_, ?_, ?_, ?_⟩
  · rw [Records.addEventHandler, h.next, List.length_append, List.length_singleton]
  · rw [Records.addEventHandler, acquired_append, h.acquired, List.range_succ]
    rfl
  · have hfresh : r.next ∉ Finset.range r.next := by simp
    rw [Records.addEventHandler, execute_append, h.live, Option.bind_some, execute_cons,
      step_acquire.mpr ⟨hfresh, rfl⟩, Option.bind_some, execute_nil, Finset.range_add_one]
  · intro other
    rw [Records.addEventHandler, lookup_addEventHandler, h.found, h.next]
    simp [List.idxOf?, List.findIdx?_append]
  · rw [Records.addEventHandler, hkeys]
    split
    · exact h.keys
    · rename_i hnew
      exact List.nodup_append'.mpr ⟨h.keys, List.nodup_singleton _, by simpa using hnew⟩
  · rw [Records.addEventHandler, hkeys, List.toFinset_append, ← h.names]
    split
    · rename_i hold
      exact (Finset.union_eq_left.mpr (by simpa using hold)).symm
    · rw [List.toFinset_append]
  · rcases hrecords with hsame | hnew
    · rw [hsame]
      exact h.records
    · rw [hnew]
      refine List.nodup_append'.mpr ⟨h.records, List.nodup_singleton _, ?_⟩
      intro n hn hlast
      obtain rfl := List.mem_singleton.mp hlast
      exact absurd (h.bounded _ hn) (Nat.lt_irrefl _)
  · intro n hn
    rw [Records.addEventHandler]
    rcases hrecords with hsame | hnew
    · rw [hsame] at hn
      exact Nat.lt_succ_of_lt (h.bounded n hn)
    · rw [hnew] at hn
      rcases List.mem_append.mp hn with hold | hlast
      · exact Nat.lt_succ_of_lt (h.bounded n hold)
      · obtain rfl := List.mem_singleton.mp hlast
        exact Nat.lt_succ_self _

theorem recorded_kept (names : List String) : Kept names (recorded names) := by
  induction names using List.reverseRecOn with
  | nil => exact ⟨rfl, rfl, rfl, fun _ => rfl, List.nodup_nil, rfl, List.nodup_nil,
      by simp [recorded, init]⟩
  | append_singleton names eventName ih =>
    rw [recorded_snoc]
    exact ih.addEventHandler eventName

section Runs

variable {κ : Type} {s t : World κ}

theorem step_registers {kind : ℕ → Kind} {a : Registry.Action κ}
    (hs : Registry.step kind s a = some t) :
    (∃ object eventName callback, t = s.onEvent object eventName callback) ∨
      t.m_callbacks = s.m_callbacks ∧
        ∀ object, namesOf (t.history object) = namesOf (s.history object) := by
  have hmoved : ∀ b, (AsyncQueue.step s.queue b).map (fun q => { s with queue := q }) = some t →
      t.m_callbacks = s.m_callbacks ∧
        ∀ object, namesOf (t.history object) = namesOf (s.history object) := by
    intro b hq
    obtain ⟨q, -, rfl⟩ := Option.map_eq_some_iff.mp hq
    exact ⟨rfl, fun _ => rfl⟩
  have hran : ∀ (q : AsyncQueue.State Posted) (p : Posted) (m : Memory)
      (calls : List (κ × List JsValue)) (object : ℕ),
      namesOf (({ s with queue := q }.note p.handler (.ran p.task m calls)).history object) =
        namesOf (s.history object) := by
    intro q p m calls object
    by_cases ho : object = p.handler
    · subst ho
      simp [World.note, namesOf]
    · simp [World.note, ho]
  cases a with
  | onEvent object eventName callback =>
    simp only [Registry.step] at hs
    split at hs
    · exact Or.inl ⟨object, eventName, callback, (Option.some.inj hs).symm⟩
    · cases hs
  | native caller object m cb =>
    simp only [Registry.step] at hs
    split at hs
    · split at hs
      · cases hs
      · exact Or.inr (hmoved _ hs)
    · cases hs
  | queue b =>
    cases b with
    | call caller p => cases hs
    | test => cases hs
    | setCapacity c => exact Or.inr (hmoved (.setCapacity c) hs)
    | close => exact Or.inr (hmoved .close hs)
    | _ => exact Or.inr (hmoved _ hs)
  | test m =>
    right
    simp only [Registry.step] at hs
    split at hs
    · cases hs
    · rename_i q hq
      split at hs
      · rename_i e hl
        unfold Registry.runTask at hs
        split at hs
        · obtain rfl := Option.some.inj hs
          exact ⟨rfl, hran q e.elem m _⟩
        · obtain ⟨argv, -, rfl⟩ := Option.map_eq_some_iff.mp hs
          exact ⟨rfl, hran q e.elem m _⟩
      · obtain rfl := Option.some.inj hs
        exact ⟨rfl, fun _ => rfl⟩

theorem reach_keys {kind : ℕ → Kind} (h : Reach (Registry.step kind) always Registry.init s)
    (object : ℕ) :
    (s.m_callbacks object).map Prod.fst =
      (recorded (namesOf (s.history object))).m_callbacks.map Prod.fst := by
  refine h.invariant (I := fun s => (s.m_callbacks object).map Prod.fst =
    (recorded (namesOf (s.history object))).m_callbacks.map Prod.fst) rfl ?_
  intro u a v hu _ hv
  rcases step_registers hv with ⟨other, eventName, callback, rfl⟩ | ⟨hmap, hnames⟩
  · by_cases ho : object = other
    · subst ho
      have hsnoc : namesOf ((u.onEvent object eventName callback).history object) =
          namesOf (u.history object) ++ [eventName] := by
        simp [World.onEvent, World.note, namesOf]
      rw [hsnoc, recorded_snoc, Records.addEventHandler, addEventHandler_keys, ← hu,
        ← addEventHandler_keys _ _ callback]
      simp [World.onEvent, World.note]
    · simpa [World.onEvent, World.note, ho] using hu
  · rw [hmap, hnames]
    exact hu

end Runs

section Leaving

variable {names : List String} {r : Records}

theorem Kept.length (h : Kept names r) : r.m_callbacks.length = names.toFinset.card := by
  rw [← h.names, List.toFinset_card_of_nodup h.keys, List.length_map]

theorem Kept.leaves_controller (h : Kept names r) :
    Leaves (destroyed r .controller) (Finset.range r.next) :=
  ⟨by rw [destroyed, h.acquired]; exact List.nodup_range, h.live⟩

theorem mem_iff_lookup {κ : Type} {l : List (String × κ)} (h : (l.map Prod.fst).Nodup)
    (name : String) (f : κ) : (name, f) ∈ l ↔ l.lookup name = some f := by
  induction l with
  | nil => simp
  | cons p l ih =>
    obtain ⟨key, g⟩ := p
    obtain ⟨hkey, hl⟩ := List.nodup_cons.mp h
    rw [List.lookup_cons, List.mem_cons]
    by_cases hname : name = key
    · subst hname
      have hnot : (name, f) ∉ l := fun hmem => hkey (List.mem_map.mpr ⟨_, hmem, rfl⟩)
      simp [hnot, eq_comm]
    · have hbeq : (name == key) = false := by simpa using hname
      simp [hbeq, hname, ih hl]

theorem Kept.mem_records (h : Kept names r) (n : ℕ) :
    n ∈ r.m_callbacks.map Prod.snd ↔ n < names.length ∧ ∀ j < n, names[j]? ≠ names[n]? := by
  have hfirst : n ∈ r.m_callbacks.map Prod.snd ↔ ∃ eventName, names.idxOf? eventName = some n := by
    simp [mem_iff_lookup h.keys, h.found]
  rw [hfirst]
  constructor
  · rintro ⟨eventName, hn⟩
    obtain ⟨hlt, rfl, hbefore⟩ := List.idxOf?_eq_some_iff.mp hn
    refine ⟨hlt, ?_⟩
    intro j hj
    simpa [List.getElem?_eq_getElem hlt, List.getElem?_eq_getElem (hj.trans hlt)] using hbefore j hj
  · rintro ⟨hlt, hbefore⟩
    refine ⟨names[n], List.idxOf?_eq_some_iff.mpr ⟨hlt, rfl, ?_⟩⟩
    intro j hj
    simpa [List.getElem?_eq_getElem hlt, List.getElem?_eq_getElem (hj.trans hlt)] using hbefore j hj

theorem Kept.repeated_eq (h : Kept names r) :
    repeated names = Finset.range r.next \ (r.m_callbacks.map Prod.snd).toFinset := by
  ext n
  rw [Finset.mem_sdiff, List.mem_toFinset, h.mem_records, h.next, repeated, Finset.mem_filter,
    Finset.mem_range]
  simp only [not_and, not_forall, not_not, exists_prop]
  tauto

theorem Kept.leaves_channel (h : Kept names r) :
    Leaves (destroyed r .channel) (repeated names) := by
  have hnone : Ownership.acquired ((r.m_callbacks.map Prod.snd).map Deed.release) = [] := by
    simp [Ownership.acquired]
  refine ⟨?_, ?_⟩
  · rw [destroyed, acquired_append, h.acquired, hnone, List.append_nil]
    exact List.nodup_range
  · rw [destroyed, execute_append, h.live, Option.bind_some, h.repeated_eq]
    exact execute_releases _ _ h.records fun n hn => Finset.mem_range.mpr (h.bounded n hn)

theorem Kept.card (h : Kept names r) :
    (repeated names).card+r.m_callbacks.length = names.length := by
  have hsub : (r.m_callbacks.map Prod.snd).toFinset ⊆ Finset.range r.next := by
    intro n hn
    exact Finset.mem_range.mpr (h.bounded n (List.mem_toFinset.mp hn))
  have hcard := Finset.card_sdiff_add_card_eq_card hsub
  rw [List.toFinset_card_of_nodup h.records, List.length_map, Finset.card_range] at hcard
  rw [h.repeated_eq, hcard, h.next]

theorem Kept.balanced_iff (h : Kept names r) :
    Balanced (destroyed r .channel) ↔ names.Nodup := by
  have hnodup : names.toFinset.card = names.length ↔ names.Nodup :=
    Multiset.toFinset_card_eq_card_iff_nodup
  have hcard := h.card
  rw [h.leaves_channel.balanced_iff, ← Finset.card_eq_zero, ← hnodup, ← h.length]
  omega

end Leaving

/-- What a handler has allocated over a run, a record at each registration, and what
its destructor leaves of it. No record is deleted twice. A channel's handler leaves
exactly the records of all registrations but the first of each name, and so none just
if no name was registered twice; a controller leaves all. -/
theorem records_left {κ : Type} (kind : ℕ → Kind) (s : World κ)
    (h : Reach (Registry.step kind) always Registry.init s) (object : ℕ) :
    (s.m_callbacks object).length = (namesOf (s.history object)).toFinset.card ∧
    (Leaves (destroyed (recorded (namesOf (s.history object))) .channel)
        (repeated (namesOf (s.history object))) ∧
      (repeated (namesOf (s.history object))).card+(s.m_callbacks object).length =
        (namesOf (s.history object)).length ∧
      (Balanced (destroyed (recorded (namesOf (s.history object))) .channel) ↔
        (namesOf (s.history object)).Nodup)) ∧
    Leaves (destroyed (recorded (namesOf (s.history object))) .controller)
      (Finset.range (namesOf (s.history object)).length) := by
  have hkept := recorded_kept (namesOf (s.history object))
  have hlength : (s.m_callbacks object).length =
      (recorded (namesOf (s.history object))).m_callbacks.length := by
    simpa using congrArg List.length (reach_keys h object)
  refine ⟨hlength.trans hkept.length, ⟨hkept.leaves_channel, ?_, hkept.balanced_iff⟩, ?_⟩
  · rw [hlength]
    exact hkept.card
  · rw [← hkept.next]
    exact hkept.leaves_controller

def twiceRun : List (Registry.Action ℕ) :=
  [.onEvent 0 "Logout" 1, .onEvent 0 "TokenExpired" 2, .onEvent 0 "Logout" 3]

theorem records_left_twice :
    Leaves (destroyed (recorded ["Logout", "TokenExpired", "Logout"]) .channel) {2} :=
  (records_left (fun _ => .channel)
    (final (Registry.step fun _ => .channel) always Registry.init twiceRun)
    (reach_final rfl) 0).2.1.1

end AgoraRtm.CallbackRecords
