import AgoraRtm.EntryPoints
import Mathlib.Data.List.Forall2

/-!
# The peer list of a query

The loop over the array is a copy of the elements that are present, in index
order. The count is the length the array had before. Each copy is of 64 bytes,
from a buffer as long as the id with its terminator.
-/

set_option autoImplicit false

namespace AgoraRtm.EntryPoints
open NodeApi

variable {σ : Type}

/-- The present elements in index order, up to the end or to an exception. -/
structure Reading where
  elems : List Value
  done : Bool

def Engine.reading (engine : Engine σ) (array : ℕ) : ℕ → ℕ → σ → Reading
  | 0, _, _ => ⟨[], true⟩
  | fuel+1, i, heap =>
    if i < (engine.Length heap array).toNat then
      match engine.Has heap array i with
      | none => ⟨[], false⟩
      | some (false, heap) => engine.reading array fuel (i+1) heap
      | some (true, heap) =>
        match engine.Get heap array i with
        | none => ⟨[], false⟩
        | some (v, heap) =>
          let rest := engine.reading array fuel (i+1) heap
          ⟨v :: rest.elems, rest.done⟩
    else ⟨[], true⟩

def Engine.present (engine : Engine σ) (heap : σ) (array : ℕ) : Reading :=
  engine.reading array (2^32) 0 heap

/-- Reading the array does not change it, and `has` and `get` are what is read. -/
structure Steady (engine : Engine σ) (heap : σ) (array : ℕ) (has : ℕ → Bool) (get : ℕ → Value) :
    Prop where
  Has : ∀ i, engine.Has heap array i = some (has i, heap)
  Get : ∀ i, has i = true → engine.Get heap array i = some (get i, heap)

theorem Steady.reading {engine : Engine σ} {heap : σ} {array : ℕ} {has : ℕ → Bool}
    {get : ℕ → Value} (h : Steady engine heap array has get) (fuel i : ℕ)
    (hfuel : (engine.Length heap array).toNat ≤ i+fuel) :
    engine.reading array fuel i heap =
      ⟨((List.range' i ((engine.Length heap array).toNat-i)).filter has).map get, true⟩ := by
  induction fuel generalizing i with
  | zero =>
    have hzero : (engine.Length heap array).toNat-i = 0 := by omega
    simp [Engine.reading, hzero]
  | succ fuel ih =>
    by_cases hi : i < (engine.Length heap array).toNat
    · obtain ⟨n, hn⟩ : ∃ n, (engine.Length heap array).toNat-i = n+1 :=
        ⟨(engine.Length heap array).toNat-(i+1), by omega⟩
      have hrest : (engine.Length heap array).toNat-(i+1) = n := by omega
      have htail := ih (i+1) (by omega)
      rw [hrest] at htail
      rw [hn, List.range'_succ]
      cases hb : has i with
      | false => simp [Engine.reading, hi, h.Has, hb, htail]
      | true => simp [Engine.reading, hi, h.Has, hb, h.Get i hb, htail]
    · have hzero : (engine.Length heap array).toNat-i = 0 := by omega
      simp [Engine.reading, hi, hzero]

theorem Steady.present {engine : Engine σ} {heap : σ} {array : ℕ} {has : ℕ → Bool}
    {get : ℕ → Value} (h : Steady engine heap array has get) :
    engine.present heap array =
      ⟨((List.range (engine.Length heap array).toNat).filter has).map get, true⟩ := by
  have hlt := (engine.Length heap array).isLt
  rw [Engine.present, h.reading _ 0 (by omega), List.range_eq_range']
  rfl

section Loop

variable (env : Env σ)

def Env.copied (k : ℕ) (block : Block) : Block :=
  (block ++ (List.range MAX_ACCOUNT_LENGTH).map (env.beyond k)).take MAX_ACCOUNT_LENGTH

theorem Env.copyId_eq (k : ℕ) (v : Value) :
    env.copyId k v =
      ⟨[.create .idBuffer, .memcpy MAX_ACCOUNT_LENGTH (extracted (env.calloc k) v)
          MAX_ACCOUNT_LENGTH],
        match extracted (env.calloc k) v with
        | some block => .ok (env.copied k block)
        | none => .error .nullString⟩ := by
  simp only [Env.copyId, env.nodeString_eq, pure_bind, Env.memcpy]
  cases extracted (env.calloc k) v <;> rfl

def Env.copyAll (done : Bool) : ℕ → List Value → Run (List Block)
  | _, [] => if done then return [] else Traced.fault .emptyResult
  | k, v :: elems => do
    let cPeerId ← env.copyId k v
    let peerIds ← Env.copyAll done (k+1) elems
    return cPeerId :: peerIds

theorem Env.copyIds_eq (array fuel i k : ℕ) (heap : σ) :
    env.copyIds array fuel i k heap =
      env.copyAll (env.engine.reading array fuel i heap).done k
        (env.engine.reading array fuel i heap).elems := by
  induction fuel generalizing i k heap with
  | zero => rfl
  | succ fuel ih =>
    simp only [Env.copyIds, Engine.reading]
    split
    · cases env.engine.Has heap array i with
      | none => rfl
      | some p =>
        obtain ⟨has, heap'⟩ := p
        cases has with
        | false => exact ih (i+1) k heap'
        | true =>
          simp only
          cases env.engine.Get heap' array i with
          | none => rfl
          | some q => simp only [ih, Env.copyAll]
    · rfl

/-- The vector holds a copy of each element's buffer. -/
inductive Copies : ℕ → List Block → List Value → Prop
  | nil (k : ℕ) : Copies k [] []
  | cons {k : ℕ} {v : Value} {block : Block} {ids : List Block} {elems : List Value}
      (hv : extracted (env.calloc k) v = some block) (hrest : Copies (k+1) ids elems) :
      Copies k (env.copied k block :: ids) (v :: elems)

variable {env}

theorem Copies.length {k : ℕ} {ids : List Block} {elems : List Value}
    (h : Copies env k ids elems) : ids.length = elems.length := by
  induction h with
  | nil => rfl
  | cons _ _ ih => simp [ih]

theorem copyAll_ok (done : Bool) (elems : List Value) (k : ℕ) (ids : List Block) :
    (env.copyAll done k elems).result = .ok ids ↔ done = true ∧ Copies env k ids elems := by
  induction elems generalizing k ids with
  | nil =>
    cases done with
    | false => simp [Env.copyAll]
    | true =>
      simp only [Env.copyAll, ↓reduceIte, Traced.pure_result, Except.ok.injEq, true_and]
      constructor
      · rintro rfl
        exact .nil k
      · rintro ⟨⟩
        rfl
  | cons v elems ih =>
    simp only [Env.copyAll, Traced.bind_result, env.copyId_eq, Traced.pure_result]
    constructor
    · rintro ⟨cPeerId, hcopy, peerIds, hrest, hids⟩
      obtain ⟨hdone, hcopies⟩ := (ih (k+1) peerIds).mp hrest
      obtain rfl := Except.ok.inj hids
      cases hv : extracted (env.calloc k) v with
      | none => simp [hv] at hcopy
      | some block =>
        obtain rfl : env.copied k block = cPeerId := by simpa [hv] using hcopy
        exact ⟨hdone, .cons hv hcopies⟩
    · rintro ⟨hdone, hcopies⟩
      cases hcopies with
      | cons hv hrest =>
        exact ⟨_, by simp [hv], _, (ih (k+1) _).mpr ⟨hdone, hrest⟩, rfl⟩

theorem copyAll_event {done : Bool} {elems : List Value} {k : ℕ} {e : Event}
    (he : e ∈ (env.copyAll done k elems).events) :
    e = .create .idBuffer ∨ ∃ src, e = .memcpy MAX_ACCOUNT_LENGTH src MAX_ACCOUNT_LENGTH := by
  induction elems generalizing k with
  | nil => cases done <;> cases he
  | cons v elems ih =>
    rw [Env.copyAll, Traced.mem_bind] at he
    rcases he with hcopy | ⟨cPeerId, -, hrest⟩
    · rw [env.copyId_eq] at hcopy
      rcases List.mem_cons.mp hcopy with rfl | hcopy
      · exact Or.inl rfl
      · exact Or.inr ⟨_, List.mem_singleton.mp hcopy⟩
    · exact ih (by simpa using hrest)

omit env in
theorem indexed_cons {β : Type*} {P : ℕ → β → Prop} {k : ℕ} {x : β} {l : List β} :
    (∀ j y, (x :: l)[j]? = some y → P (k+j) y) ↔
      P k x ∧ ∀ j y, l[j]? = some y → P (k+1+j) y := by
  constructor
  · intro h
    refine ⟨h 0 x rfl, ?_⟩
    intro j y hj
    have htail := h (j+1) y (by simpa using hj)
    rwa [Nat.add_comm j 1, ← Nat.add_assoc] at htail
  · rintro ⟨hx, hl⟩ j y hj
    cases j with
    | zero =>
      obtain rfl : x = y := by simpa using hj
      exact hx
    | succ j =>
      have htail := hl j y (by simpa using hj)
      rwa [Nat.add_right_comm] at htail

theorem copyAll_holds {P : Event → Prop} (hnew : P (.create .idBuffer))
    (hnull : ¬ P (.memcpy MAX_ACCOUNT_LENGTH none MAX_ACCOUNT_LENGTH)) (done : Bool)
    (elems : List Value) (k : ℕ) :
    Traced.Holds P (env.copyAll done k elems) ↔ ∀ j v, elems[j]? = some v →
      P (.memcpy MAX_ACCOUNT_LENGTH (extracted (env.calloc (k+j)) v) MAX_ACCOUNT_LENGTH) := by
  induction elems generalizing k with
  | nil => cases done <;> simp [Env.copyAll]
  | cons v elems ih =>
    have hhead : Traced.Holds P (env.copyId k v) ↔
        P (.memcpy MAX_ACCOUNT_LENGTH (extracted (env.calloc k) v) MAX_ACCOUNT_LENGTH) := by
      simp [Traced.Holds, env.copyId_eq, hnew]
    simp only [Env.copyAll, Traced.holds_bind, hhead, Traced.holds_pure, implies_true, and_true]
    rw [@indexed_cons Value (fun i w =>
      P (.memcpy MAX_ACCOUNT_LENGTH (extracted (env.calloc i) w) MAX_ACCOUNT_LENGTH))]
    refine and_congr_right fun hv => ?_
    constructor
    · intro hrest
      cases hb : extracted (env.calloc k) v with
      | none => exact absurd (hb ▸ hv) hnull
      | some block =>
        have hcopy : (env.copyId k v).result = .ok (env.copied k block) := by
          simp [env.copyId_eq, hb]
        exact (ih (k+1)).mp (hrest _ hcopy)
    · exact fun h _ _ => (ih (k+1)).mpr h

end Loop

section Query

variable {env : Env σ} {args : List Value} {array : ℕ}

theorem args_given (ha : arg args 0 = .array array) : ¬ args.length < 1 := by
  intro hlt
  have hnil : args = [] := List.length_eq_zero_iff.mp (by omega)
  simp [arg, hnil] at ha

theorem query_eq (ha : arg args 0 = .array array) (hu : env.unwrapped = true) :
    queryPeersOnlineStatus env args = (do
      let peerIds ← env.copyAll (env.engine.present env.heap array).done 0
        (env.engine.present env.heap array).elems
      Traced.emit (.call (.queryPeersOnlineStatus peerIds (env.engine.Length env.heap array)))
      return napi_set_int_result ((env.assigned.getD env.requestId).setWidth 32)) := by
  simp only [queryPeersOnlineStatus, args_given ha, ↓reduceIte, ha, hu, env.copyIds_eq, Env.invoke,
    Engine.present, bind_assoc, pure_bind]

theorem query_no_object (ha : arg args 0 = .array array) (hu : env.unwrapped = false) :
    (queryPeersOnlineStatus env args).events = [] := by
  unfold queryPeersOnlineStatus
  split
  · rfl
  · simp only [ha, hu]
    rfl

theorem query_no_array (ha : ∀ array, arg args 0 ≠ .array array) :
    (queryPeersOnlineStatus env args).events = [] := by
  unfold queryPeersOnlineStatus
  split
  · rfl
  · split
    · rename_i array harray
      exact absurd harray (ha array)
    · rfl

theorem query_memcpy (ha : arg args 0 = .array array) (hu : env.unwrapped = true)
    {P : Event → Prop} (hnew : P (.create .idBuffer))
    (hcall : ∀ ids count, P (.call (.queryPeersOnlineStatus ids count)))
    (hnull : ¬ P (.memcpy MAX_ACCOUNT_LENGTH none MAX_ACCOUNT_LENGTH)) :
    Traced.Holds P (queryPeersOnlineStatus env args) ↔
      ∀ k v, (env.engine.present env.heap array).elems[k]? = some v →
        P (.memcpy MAX_ACCOUNT_LENGTH (extracted (env.calloc k) v) MAX_ACCOUNT_LENGTH) := by
  rw [query_eq ha hu, Traced.holds_bind, copyAll_holds hnew hnull]
  simp [hcall]

theorem query_call (ha : arg args 0 = .array array) {ids : List Block} {count : BitVec 32}
    (hcall : .call (.queryPeersOnlineStatus ids count) ∈ (queryPeersOnlineStatus env args).events) :
    count = env.engine.Length env.heap array ∧
    Copies env 0 ids (env.engine.present env.heap array).elems := by
  cases hu : env.unwrapped with
  | false =>
    rw [query_no_object ha hu] at hcall
    cases hcall
  | true =>
    rw [query_eq ha hu, Traced.mem_bind] at hcall
    rcases hcall with hloop | ⟨peerIds, hids, hcall⟩
    · rcases copyAll_event hloop with h | ⟨src, h⟩ <;> cases h
    · obtain ⟨rfl, rfl⟩ : ids = peerIds ∧ count = env.engine.Length env.heap array := by
        simpa using hcall
      exact ⟨rfl, ((copyAll_ok _ _ _ _).mp hids).2⟩

end Query

theorem toInt_eq_nat (b : BitVec 32) (n : ℕ) : b.toInt = n ↔ n = b.toNat ∧ b.toNat < 2^31 := by
  have hlt := b.isLt
  rw [BitVec.toInt_eq_toNat_cond]
  split <;> omega

/-- The count is the number of entries, which are the elements in order. -/
structure Consistent (env : Env σ) (elems : List Value) (ids : List Block) (count : BitVec 32) :
    Prop where
  agree : count.toInt = ids.length
  inside : ∀ j : ℕ, (j : ℤ) < count.toInt → j < ids.length
  entries : Copies env 0 ids elems

/-- The count agrees with the vector exactly where as many elements are met as
the array was long before, which an `int` can hold; that is, for an array that
reading does not change, where no index below its length is a hole. -/
theorem peer_count_agrees (env : Env σ) (args : List Value) (array : ℕ) (ids : List Block)
    (count : BitVec 32) (ha : arg args 0 = .array array)
    (hcall : .call (.queryPeersOnlineStatus ids count) ∈
      (queryPeersOnlineStatus env args).events) :
    (Consistent env (env.engine.present env.heap array).elems ids count ↔
      (env.engine.present env.heap array).elems.length =
        (env.engine.Length env.heap array).toNat ∧
      (env.engine.Length env.heap array).toNat < 2^31) ∧
    ∀ has get, Steady env.engine env.heap array has get →
      ((env.engine.present env.heap array).elems.length =
          (env.engine.Length env.heap array).toNat ↔
        ∀ i < (env.engine.Length env.heap array).toNat, has i = true) := by
  obtain ⟨rfl, hcopies⟩ := query_call ha hcall
  constructor
  · rw [← hcopies.length, ← toInt_eq_nat]
    constructor
    · exact fun h => h.agree
    · intro h
      refine ⟨h, ?_, hcopies⟩
      intro j hj
      omega
  · intro has get hsteady
    rw [hsteady.present, List.length_map]
    constructor
    · intro h i hi
      have hall := List.filter_eq_self.mp
        (List.filter_sublist.eq_of_length (h.trans List.length_range.symm))
      exact hall i (List.mem_range.mpr hi)
    · intro h
      rw [List.filter_eq_self.mpr fun i hi => h i (List.mem_range.mp hi), List.length_range]

def ab : Value := .string [97, 98]

theorem peer_count_agrees_dense :
    Consistent (plainEnv [some ab, some ab]) [ab, ab]
      [(plainEnv []).copied 0 [97, 98, 0], (plainEnv []).copied 1 [97, 98, 0]] 2 :=
  (peer_count_agrees (plainEnv [some ab, some ab]) [.array 0] 0
    [(plainEnv []).copied 0 [97, 98, 0], (plainEnv []).copied 1 [97, 98, 0]] 2 rfl
    (by decide)).1.mpr (by decide)

/-- Of an array of length 2 with a hole at index 1, one id is passed with the
count 2. -/
theorem peer_count_of_hole :
    ¬ ∀ (env : Env Unit) (args : List Value) (array : ℕ) (ids : List Block) (count : BitVec 32),
      arg args 0 = .array array →
      .call (.queryPeersOnlineStatus ids count) ∈ (queryPeersOnlineStatus env args).events →
      Consistent env (env.engine.present env.heap array).elems ids count := by
  intro h
  have hcount := (h (plainEnv [some ab, none]) [.array 0] 0
    [(plainEnv []).copied 0 [97, 98, 0]] 2 rfl (by decide)).agree
  revert hcount
  decide

end AgoraRtm.EntryPoints
