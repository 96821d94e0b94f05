import AgoraRtm.PeerQuery

/-!
# The copies of peer ids

Each id is copied with a fixed 64 bytes into a block of 64. Its buffer holds the
id and the terminator, so only an id of 63 bytes fills the copy exactly: after a
shorter one the copy reads on, and of a longer one it leaves the terminator out.
-/

set_option autoImplicit false

namespace AgoraRtm.EntryPoints
open NodeApi

variable {σ : Type}

/-- A user id of the SDK: 1 to 64 bytes and no NUL. -/
def Legal (v : Value) : Prop :=
  ∃ text, v.text = some text ∧ 1 ≤ text.length ∧ text.length ≤ MAX_ACCOUNT_LENGTH ∧ 0 ∉ text

def InBounds (e : Event) : Prop :=
  ∀ dst src n, e = .memcpy dst src n → ∃ buffer, src = some buffer ∧ n ≤ buffer.length

theorem inBounds_create : InBounds (.create .idBuffer) := by
  intro dst src n he
  cases he

theorem inBounds_call (ids : List Block) (count : BitVec 32) :
    InBounds (.call (.queryPeersOnlineStatus ids count)) := by
  intro dst src n he
  cases he

theorem inBounds_null (dst n : ℕ) : ¬ InBounds (.memcpy dst none n) := by
  intro h
  obtain ⟨buffer, hb, -⟩ := h _ _ _ rfl
  cases hb

/-- The copies stay in their blocks, and the SDK gets the ids as C strings. -/
structure Faithful (env : Env σ) (args : List Value) (elems : List Value) : Prop where
  reads : Traced.Holds InBounds (queryPeersOnlineStatus env args)
  writes : ∀ dst src n, .memcpy dst src n ∈ (queryPeersOnlineStatus env args).events → n ≤ dst
  strings : ∀ ids count,
    .call (.queryPeersOnlineStatus ids count) ∈ (queryPeersOnlineStatus env args).events →
    ids.length = elems.length ∧ ∀ (k : ℕ) (v : Value), elems[k]? = some v →
      ∃ block : Block, ids[k]? = some block ∧ 0 ∈ block ∧
        v.text = some (block.takeWhile (· ≠ 0))

section Copies

variable {env : Env σ}

theorem extracted_text (calloc : Bool) (v : Value) (buffer : Block)
    (h : extracted calloc v = some buffer) :
    calloc = true ∧ ∃ text, v.text = some text ∧ buffer = text ++ [0] := by
  obtain ⟨hc, units, rfl, -, rfl⟩ := (extracted_some _ _ _).mp h
  exact ⟨hc, _, rfl, rfl⟩

theorem extracted_of_text {v : Value} {text : List UInt8} (h : v.text = some text)
    (hne : text ≠ []) : extracted true v = some (text ++ [0]) := by
  obtain ⟨b, bytes, rfl⟩ := List.exists_cons_of_ne_nil hne
  simp [extracted, h]

theorem Copies.get {k : ℕ} {ids : List Block} {elems : List Value} (h : Copies env k ids elems)
    (j : ℕ) (v : Value) (hj : elems[j]? = some v) :
    ∃ buffer, extracted (env.calloc (k+j)) v = some buffer ∧
      ids[j]? = some (env.copied (k+j) buffer) := by
  induction h generalizing j with
  | nil => cases hj
  | @cons k v' buffer ids elems hv hrest ih =>
    cases j with
    | zero =>
      obtain rfl : v' = v := by simpa using hj
      exact ⟨buffer, hv, rfl⟩
    | succ j =>
      obtain ⟨buffer', hv', hget⟩ := ih j (by simpa using hj)
      have hk : k+(j+1) = k+1+j := by omega
      rw [hk]
      exact ⟨buffer', hv', hget⟩

theorem copies_exist (elems : List Value) (k : ℕ)
    (h : ∀ j v, elems[j]? = some v → ∃ buffer, extracted (env.calloc (k+j)) v = some buffer) :
    ∃ ids, Copies env k ids elems := by
  induction elems generalizing k with
  | nil => exact ⟨[], .nil k⟩
  | cons v elems ih =>
    have hcons := @indexed_cons Value
      (fun i w => ∃ buffer, extracted (env.calloc i) w = some buffer) k v elems
    obtain ⟨⟨buffer, hv⟩, helems⟩ := hcons.mp h
    obtain ⟨ids, hrest⟩ := ih (k+1) helems
    exact ⟨_, .cons hv hrest⟩

theorem copied_exact (k : ℕ) (buffer : Block) (h : buffer.length = MAX_ACCOUNT_LENGTH) :
    env.copied k buffer = buffer := by
  rw [Env.copied, List.take_append_of_le_length (Nat.le_of_eq h.symm), ← h, List.take_length]

theorem copied_full (k : ℕ) (text : List UInt8) (h : text.length = MAX_ACCOUNT_LENGTH) :
    env.copied k (text ++ [0]) = text := by
  rw [Env.copied, List.append_assoc, List.take_append_of_le_length (Nat.le_of_eq h.symm), ← h,
    List.take_length]

end Copies

section Query

variable {env : Env σ} {args : List Value} {array : ℕ}

theorem query_event (ha : arg args 0 = .array array) {e : Event}
    (he : e ∈ (queryPeersOnlineStatus env args).events) :
    e = .create .idBuffer ∨ (∃ src, e = .memcpy MAX_ACCOUNT_LENGTH src MAX_ACCOUNT_LENGTH) ∨
    ∃ ids count, e = .call (.queryPeersOnlineStatus ids count) := by
  cases hu : env.unwrapped with
  | false =>
    rw [query_no_object ha hu] at he
    cases he
  | true =>
    rw [query_eq ha hu, Traced.mem_bind] at he
    rcases he with hloop | ⟨ids, -, hcall⟩
    · exact (copyAll_event hloop).imp_right Or.inl
    · exact Or.inr (Or.inr ⟨ids, _, by simpa using hcall⟩)

theorem query_called (ha : arg args 0 = .array array) (hu : env.unwrapped = true)
    (hdone : (env.engine.present env.heap array).done = true) {ids : List Block}
    (h : Copies env 0 ids (env.engine.present env.heap array).elems) :
    .call (.queryPeersOnlineStatus ids (env.engine.Length env.heap array)) ∈
      (queryPeersOnlineStatus env args).events := by
  rw [query_eq ha hu, Traced.mem_bind]
  exact Or.inr ⟨ids, (copyAll_ok _ _ _ _).mpr ⟨hdone, h⟩, by simp⟩

theorem Faithful.lengths (ha : arg args 0 = .array array) (hu : env.unwrapped = true)
    (hread : (env.engine.present env.heap array).done = true)
    (hlegal : ∀ v ∈ (env.engine.present env.heap array).elems, Legal v)
    (h : Faithful env args (env.engine.present env.heap array).elems) (k : ℕ) (v : Value)
    (hk : (env.engine.present env.heap array).elems[k]? = some v) :
    env.calloc k = true ∧ v.text.map List.length = some 63 := by
  have hreads := (query_memcpy ha hu inBounds_create inBounds_call (inBounds_null _ _)).mp h.reads
  have hbuffer : ∀ (j : ℕ) (v : Value),
      (env.engine.present env.heap array).elems[j]? = some v →
      ∃ buffer, extracted (env.calloc (0+j)) v = some buffer ∧
        MAX_ACCOUNT_LENGTH ≤ buffer.length := by
    intro j v hj
    rw [Nat.zero_add]
    exact hreads j v hj _ _ _ rfl
  obtain ⟨ids, hcopies⟩ := @copies_exist σ env _ 0 fun j v hj =>
    (hbuffer j v hj).imp fun _ hb => hb.1
  obtain ⟨buffer, hb, hget⟩ := hcopies.get k v hk
  obtain ⟨buffer', hb', hlen⟩ := hbuffer k v hk
  obtain rfl : buffer = buffer' := Option.some.inj (hb.symm.trans hb')
  rw [Nat.zero_add] at hb hget
  obtain ⟨hcalloc, text, htext, rfl⟩ := extracted_text _ _ _ hb
  obtain ⟨text', htext', -, hmax, hnul⟩ := hlegal v (List.mem_of_getElem? hk)
  obtain rfl : text = text' := Option.some.inj (htext.symm.trans htext')
  have hne : text.length ≠ MAX_ACCOUNT_LENGTH := by
    intro hfull
    obtain ⟨block, hblock, hzero, -⟩ :=
      (h.strings ids _ (query_called ha hu hread hcopies)).2 k v hk
    rw [hget, copied_full k text hfull] at hblock
    obtain rfl := Option.some.inj hblock
    exact hnul hzero
  have hlength : text.length = 63 := by
    simp only [MAX_ACCOUNT_LENGTH, List.length_append, List.length_singleton] at *
    omega
  refine ⟨hcalloc, ?_⟩
  rw [htext, Option.map_some, hlength]

theorem faithful_of_lengths (ha : arg args 0 = .array array) (hu : env.unwrapped = true)
    (hlegal : ∀ v ∈ (env.engine.present env.heap array).elems, Legal v)
    (h : ∀ (k : ℕ) (v : Value), (env.engine.present env.heap array).elems[k]? = some v →
      env.calloc k = true ∧ v.text.map List.length = some 63) :
    Faithful env args (env.engine.present env.heap array).elems := by
  have hbuffer : ∀ (k : ℕ) (v : Value),
      (env.engine.present env.heap array).elems[k]? = some v →
      ∃ text, v.text = some text ∧ (text ++ [0]).length = MAX_ACCOUNT_LENGTH ∧ 0 ∉ text ∧
        extracted (env.calloc k) v = some (text ++ [0]) := by
    intro k v hk
    obtain ⟨hcalloc, hlength⟩ := h k v hk
    obtain ⟨text, htext, hmin, -, hnul⟩ := hlegal v (List.mem_of_getElem? hk)
    have hlen : text.length = 63 := by simpa [htext] using hlength
    have hne : text ≠ [] := List.ne_nil_of_length_pos hmin
    exact ⟨text, htext, by simp [hlen, MAX_ACCOUNT_LENGTH], hnul,
      hcalloc ▸ extracted_of_text htext hne⟩
  refine ⟨?_, ?_, ?_⟩
  · rw [query_memcpy ha hu inBounds_create inBounds_call (inBounds_null _ _)]
    rintro k v hk dst src n ⟨⟩
    obtain ⟨text, -, hlen, -, hb⟩ := hbuffer k v hk
    exact ⟨_, hb, Nat.le_of_eq hlen.symm⟩
  · intro dst src n he
    rcases query_event ha he with h | ⟨src', h⟩ | ⟨ids, count, h⟩
    · cases h
    · cases h
      exact Nat.le_refl _
    · cases h
  · intro ids count hcall
    obtain ⟨-, hcopies⟩ := query_call ha hcall
    refine ⟨hcopies.length, ?_⟩
    intro k v hk
    obtain ⟨text, htext, hlen, hnul, hb⟩ := hbuffer k v hk
    obtain ⟨buffer, hb', hget⟩ := hcopies.get k v hk
    rw [Nat.zero_add] at hb' hget
    obtain rfl : buffer = text ++ [0] := Option.some.inj (hb'.symm.trans hb)
    rw [copied_exact k _ hlen] at hget
    have hkeep : ∀ b ∈ text, decide (b ≠ 0) = true := by
      intro b hb
      have hne : b ≠ 0 := by
        rintro rfl
        exact hnul hb
      simpa using hne
    refine ⟨_, hget, by simp, ?_⟩
    rw [htext, List.takeWhile_append_of_pos hkeep]
    simp

end Query

/-- Legal ids are copied faithfully and in bounds exactly where each is 63 bytes
long and its buffer has been allocated (or no object has been unwrapped, and
nothing is copied). -/
theorem ids_faithful (env : Env σ) (args : List Value) (array : ℕ)
    (ha : arg args 0 = .array array)
    (hread : (env.engine.present env.heap array).done = true)
    (hlegal : ∀ v ∈ (env.engine.present env.heap array).elems, Legal v) :
    Faithful env args (env.engine.present env.heap array).elems ↔
      (env.unwrapped = true → ∀ (k : ℕ) (v : Value),
        (env.engine.present env.heap array).elems[k]? = some v →
          env.calloc k = true ∧ v.text.map List.length = some 63) := by
  cases hu : env.unwrapped with
  | true =>
    constructor
    · exact fun h _ k v hk => h.lengths ha hu hread hlegal k v hk
    · exact fun h => faithful_of_lengths ha hu hlegal (h rfl)
  | false =>
    have hnone : (queryPeersOnlineStatus env args).events = [] := query_no_object ha hu
    constructor
    · intro _ hfalse
      cases hfalse
    · intro _
      constructor <;> simp [hnone, Traced.Holds]

def letters (n : ℕ) : Value := .string (List.replicate n 97)

theorem ids_faithful_63 :
    Faithful (plainEnv [some (letters 63)]) [.array 0] [letters 63] ∧
    ¬ Faithful (plainEnv [some (letters 64)]) [.array 0] [letters 64] := by
  constructor
  · refine (ids_faithful (plainEnv [some (letters 63)]) [.array 0] 0 rfl rfl ?_).mpr ?_
    · rintro v (_ | ⟨_, ⟨⟩⟩)
      exact ⟨List.replicate 63 97, by decide, by decide, by decide, by decide⟩
    · rintro - k v hk
      obtain rfl : v = letters 63 := List.mem_singleton.mp (List.mem_of_getElem? hk)
      exact ⟨rfl, by decide⟩
  · intro h
    have hlengths := (ids_faithful (plainEnv [some (letters 64)]) [.array 0] 0 rfl rfl (by
      rintro v (_ | ⟨_, ⟨⟩⟩)
      exact ⟨List.replicate 64 97, by decide, by decide, by decide, by decide⟩)).mp h rfl 0
        (letters 64) rfl
    revert hlengths
    decide

/-- The copy of a five-letter id reads 64 bytes of a buffer of 6. -/
theorem short_id_overread :
    ¬ ∀ (env : Env Unit) (args : List Value) (array : ℕ), arg args 0 = .array array →
      env.unwrapped = true → (∀ k, env.calloc k = true) →
      (env.engine.present env.heap array).done = true →
      (∀ v ∈ (env.engine.present env.heap array).elems, Legal v) →
      Faithful env args (env.engine.present env.heap array).elems := by
  intro h
  have hreads := (h (plainEnv [some (letters 5)]) [.array 0] 0 rfl rfl (fun _ => rfl) rfl (by
    rintro v (_ | ⟨_, ⟨⟩⟩)
    exact ⟨List.replicate 5 97, by decide, by decide, by decide, by decide⟩)).reads
  obtain ⟨buffer, hb, hlen⟩ := hreads (.memcpy 64 (some [97, 97, 97, 97, 97, 0]) 64) (by decide)
    _ _ _ rfl
  obtain rfl := Option.some.inj hb
  revert hlen
  decide

end AgoraRtm.EntryPoints
