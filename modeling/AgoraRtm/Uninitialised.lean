import AgoraRtm.PeerIds
import AgoraRtm.StringArguments

/-!
# Uninitialised memory

A call finds in memory what no one has written: a file size and a request id in
two locals, which a getter or the SDK may leave as they are, and the bytes after
a buffer that is copied with a fixed length. Two runs of one call that find
different things there are compared by what crosses to the SDK and to
JavaScript.
-/

set_option autoImplicit false

namespace AgoraRtm.EntryPoints
open NodeApi

variable {σ : Type}

structure Stale where
  fileSize : BitVec 32
  requestId : BitVec 64
  beyond : ℕ → ℕ → UInt8

def Env.holding (env : Env σ) (u : Stale) : Env σ :=
  { env with fileSize := u.fileSize, requestId := u.requestId, beyond := u.beyond }

def nativeCalls (events : List Event) : List NativeCall :=
  events.filterMap fun
    | .call c => some c
    | _ => none

def crossing (x : Run Result) : List NativeCall × Except Fault Result :=
  (nativeCalls x.events, x.result)

/-- What crosses is the same in two runs that find related things in memory. -/
def Independent (R : Stale → Stale → Prop) (e : EntryPoint) (env : Env σ) (args : List Value) :
    Prop :=
  ∀ u v, R u v → crossing (e.run (env.holding u) args) = crossing (e.run (env.holding v) args)

def SameHeap (u v : Stale) : Prop := u.beyond = v.beyond

structure Queries (env : Env σ) (args : List Value) (array : ℕ) : Prop where
  isArray : arg args 0 = .array array
  unwrapped : env.unwrapped = true
  done : (env.engine.present env.heap array).done = true
  given : ∀ (k : ℕ) (v : Value), (env.engine.present env.heap array).elems[k]? = some v →
    Given env k v

/-- The locals that the call reads have been written: the size by the getter, the
request id by the SDK. -/
def Written (env : Env σ) (args : List Value) : EntryPoint → Prop
  | .setLogFileSize => env.unwrapped = true → ∃ n, arg args 0 = .int32 n
  | .queryPeersOnlineStatus => ∀ array, Queries env args array → env.assigned.isSome = true
  | _ => True

/-- Each id that is copied fills the 64 bytes with its terminator. -/
def Filled (env : Env σ) (args : List Value) : EntryPoint → Prop
  | .queryPeersOnlineStatus => ∀ array, Queries env args array →
      ∀ v ∈ (env.engine.present env.heap array).elems, ∀ text, v.text = some text →
        MAX_ACCOUNT_LENGTH ≤ text.length+1
  | _ => True

section Copying

variable {env : Env σ}

theorem nativeCalls_append (first rest : List Event) :
    nativeCalls (first ++ rest) = nativeCalls first ++ nativeCalls rest :=
  List.filterMap_append

theorem copyAll_nativeCalls (done : Bool) (elems : List Value) (k : ℕ) :
    nativeCalls (env.copyAll done k elems).events = [] := by
  apply List.filterMap_eq_nil_iff.mpr
  intro e he
  rcases copyAll_event he with rfl | ⟨src, rfl⟩ <;> rfl

def copyEvents (src : CharPtr) : List Event :=
  [.create .idBuffer, .memcpy MAX_ACCOUNT_LENGTH src MAX_ACCOUNT_LENGTH]

theorem copyId_some (env : Env σ) (k : ℕ) (v : Value) (block : Block)
    (h : extracted (env.calloc k) v = some block) :
    env.copyId k v = ⟨copyEvents (some block), .ok (env.copied k block)⟩ := by
  rw [Env.copyId_eq, h]
  rfl

theorem copyId_none (env : Env σ) (k : ℕ) (v : Value) (h : extracted (env.calloc k) v = none) :
    env.copyId k v = ⟨copyEvents none, .error .nullString⟩ := by
  rw [Env.copyId_eq, h]
  rfl

theorem copyAll_faults (done : Bool) (elems : List Value) (k : ℕ)
    (h : ¬ (done = true ∧ ∀ j v, elems[j]? = some v → Given env (k+j) v)) :
    ∃ events fault, ∀ u, (env.holding u).copyAll done k elems = ⟨events, .error fault⟩ := by
  induction elems generalizing k with
  | nil =>
    cases done with
    | false => exact ⟨[], .emptyResult, fun u => rfl⟩
    | true => exact absurd ⟨rfl, fun j v hj => by cases hj⟩ h
  | cons v elems ih =>
    rw [@indexed_cons Value (Given env) k v elems] at h
    by_cases hv : Given env k v
    · obtain ⟨block, hblock⟩ := hv.extracted
      obtain ⟨events, fault, hrest⟩ := ih (k+1) fun hall => h ⟨hall.1, hv, hall.2⟩
      refine ⟨copyEvents (some block) ++ events, fault, ?_⟩
      intro u
      have hfails : ((env.holding u).copyAll done (k+1) elems).result = .error fault := by
        rw [hrest u]
      rw [Env.copyAll, copyId_some (env.holding u) k v block hblock, Traced.bind_of_ok rfl,
        Traced.bind_of_error hfails, hrest u]
    · refine ⟨copyEvents none, .nullString, ?_⟩
      intro u
      have hnull : extracted (env.calloc k) v = none := (extracted_eq_none env k v).mpr hv
      rw [Env.copyAll, copyId_none (env.holding u) k v hnull, Traced.bind_of_error rfl]

theorem Copies.congr {u v : Stale} {k : ℕ} {ids ids' : List Block} {elems : List Value}
    (hu : Copies (env.holding u) k ids elems) (hv : Copies (env.holding v) k ids' elems)
    (hcopied : ∀ (j : ℕ) (w : Value) (block : Block), elems[j]? = some w →
      extracted (env.calloc (k+j)) w = some block →
      (env.holding u).copied (k+j) block = (env.holding v).copied (k+j) block) : ids = ids' := by
  apply List.ext_getElem?
  intro j
  cases hj : elems[j]? with
  | none =>
    have hlen := List.getElem?_eq_none_iff.mp hj
    rw [List.getElem?_eq_none (hu.length ▸ hlen), List.getElem?_eq_none (hv.length ▸ hlen)]
  | some w =>
    obtain ⟨block, hblock, hget⟩ := hu.get j w hj
    obtain ⟨block', hblock', hget'⟩ := hv.get j w hj
    obtain rfl : block = block' := Option.some.inj (hblock.symm.trans hblock')
    rw [hget, hget', hcopied j w block hj hblock]

theorem copied_long (k : ℕ) (block : Block) (h : MAX_ACCOUNT_LENGTH ≤ block.length) :
    env.copied k block = block.take MAX_ACCOUNT_LENGTH :=
  List.take_append_of_le_length h

theorem copied_short (k : ℕ) (block : Block) (h : block.length < MAX_ACCOUNT_LENGTH) :
    (env.copied k block)[block.length]? = some (env.beyond k 0) := by
  rw [Env.copied, List.getElem?_take_of_lt h, List.getElem?_append_right (Nat.le_refl _)]
  simp [MAX_ACCOUNT_LENGTH]

end Copying

section Query

variable {env : Env σ} {args : List Value} {array : ℕ}

theorem query_holding (ha : arg args 0 = .array array) (hu : env.unwrapped = true) (u : Stale) :
    queryPeersOnlineStatus (env.holding u) args = (do
      let peerIds ← (env.holding u).copyAll (env.engine.present env.heap array).done 0
        (env.engine.present env.heap array).elems
      Traced.emit (.call (.queryPeersOnlineStatus peerIds (env.engine.Length env.heap array)))
      return napi_set_int_result ((env.assigned.getD u.requestId).setWidth 32)) :=
  @query_eq σ (env.holding u) args array ha hu

/-- A query that is called passes the copied ids and returns the id that the SDK
has written, or else the one that was found. -/
theorem query_crossing (h : Queries env args array) (u : Stale) :
    ∃ ids, Copies (env.holding u) 0 ids (env.engine.present env.heap array).elems ∧
      crossing (queryPeersOnlineStatus (env.holding u) args) =
        ([.queryPeersOnlineStatus ids (env.engine.Length env.heap array)],
          .ok (napi_set_int_result ((env.assigned.getD u.requestId).setWidth 32))) := by
  obtain ⟨ids, hids⟩ := @copies_exist σ (env.holding u) _ 0 fun j v hj => by
    rw [Nat.zero_add]
    exact (h.given j v hj).extracted
  refine ⟨ids, hids, ?_⟩
  have hloop : ((env.holding u).copyAll (env.engine.present env.heap array).done 0
      (env.engine.present env.heap array).elems).result = .ok ids :=
    (copyAll_ok _ _ _ _).mpr ⟨h.done, hids⟩
  rw [query_holding h.isArray h.unwrapped, Traced.bind_of_ok hloop, crossing,
    nativeCalls_append, copyAll_nativeCalls]
  rfl

theorem query_unread (h : ∀ array, ¬ Queries env args array) (u v : Stale) :
    queryPeersOnlineStatus (env.holding u) args = queryPeersOnlineStatus (env.holding v) args := by
  by_cases ha : ∃ array, arg args 0 = .array array
  · obtain ⟨array, ha⟩ := ha
    cases hu : env.unwrapped with
    | false =>
      simp only [queryPeersOnlineStatus, ha, Env.holding, hu, Bool.false_eq_true, ↓reduceIte]
    | true =>
      obtain ⟨events, fault, hloop⟩ := copyAll_faults (env.engine.present env.heap array).done
        (env.engine.present env.heap array).elems 0 fun hall =>
          h array ⟨ha, hu, hall.1, fun k v hk => by simpa using hall.2 k v hk⟩
      have hfault : ∀ w, queryPeersOnlineStatus (env.holding w) args = ⟨events, .error fault⟩ := by
        intro w
        have hfails : ((env.holding w).copyAll (env.engine.present env.heap array).done 0
            (env.engine.present env.heap array).elems).result = .error fault := by
          rw [hloop w]
        rw [query_holding ha hu, Traced.bind_of_error hfails, hloop w]
      rw [hfault u, hfault v]
  · simp only [queryPeersOnlineStatus]
    split
    · rfl
    · split
      · rename_i array harray
        exact absurd ⟨array, harray⟩ ha
      · rfl

theorem buffer_length {v : Value} {k : ℕ} {block : Block} {text : List UInt8}
    (hb : extracted (env.calloc k) v = some block) (ht : v.text = some text) :
    block.length = text.length+1 := by
  obtain ⟨-, text', ht', rfl⟩ := extracted_text _ _ _ hb
  obtain rfl : text = text' := Option.some.inj (ht.symm.trans ht')
  simp

theorem ids_same {u v : Stale}
    (hsame : u.beyond = v.beyond ∨ ∀ w ∈ (env.engine.present env.heap array).elems,
      ∀ text, w.text = some text → MAX_ACCOUNT_LENGTH ≤ text.length+1)
    {ids ids' : List Block}
    (hu : Copies (env.holding u) 0 ids (env.engine.present env.heap array).elems)
    (hv : Copies (env.holding v) 0 ids' (env.engine.present env.heap array).elems) :
    ids = ids' := by
  apply hu.congr hv
  intro j w block hj hb
  rcases hsame with hbeyond | hlong
  · simp only [Env.copied, Env.holding, hbeyond]
  · obtain ⟨-, text, ht, -⟩ := extracted_text _ _ _ hb
    have hlen : MAX_ACCOUNT_LENGTH ≤ block.length := by
      rw [buffer_length hb ht]
      exact hlong w (List.mem_of_getElem? hj) text ht
    rw [copied_long _ block hlen, copied_long _ block hlen]

theorem query_independent {R : Stale → Stale → Prop} :
    Independent R .queryPeersOnlineStatus env args ↔
      ∀ array, Queries env args array → ∀ u v, R u v →
        (env.assigned = none → u.requestId.setWidth 32 = v.requestId.setWidth 32) ∧
        ∀ ids ids', Copies (env.holding u) 0 ids (env.engine.present env.heap array).elems →
          Copies (env.holding v) 0 ids' (env.engine.present env.heap array).elems → ids = ids' := by
  constructor
  · intro h array hq u v hR
    obtain ⟨idsU, hidsU, hcrossU⟩ := query_crossing hq u
    obtain ⟨idsV, hidsV, hcrossV⟩ := query_crossing hq v
    have hsame := hcrossU.symm.trans ((h u v hR).trans hcrossV)
    have hids : idsU = idsV := by simpa using congrArg Prod.fst hsame
    refine ⟨?_, ?_⟩
    · intro hnone
      have hresult := Except.ok.inj (congrArg Prod.snd hsame)
      rw [hnone] at hresult
      exact BitVec.eq_of_toInt_eq (Result.number.inj hresult)
    · intro ids ids' hu hv
      rw [hu.congr hidsU fun _ _ _ _ _ => rfl, hv.congr hidsV fun _ _ _ _ _ => rfl, hids]
  · intro h u v hR
    by_cases hq : ∃ array, Queries env args array
    · obtain ⟨array, hq⟩ := hq
      obtain ⟨idsU, hidsU, hcrossU⟩ := query_crossing hq u
      obtain ⟨idsV, hidsV, hcrossV⟩ := query_crossing hq v
      obtain ⟨hid, hids⟩ := h array hq u v hR
      have hreturn : (env.assigned.getD u.requestId).setWidth 32 =
          (env.assigned.getD v.requestId).setWidth 32 := by
        cases ha : env.assigned with
        | none => exact hid ha
        | some r => rfl
      refine hcrossU.trans (Eq.trans ?_ hcrossV.symm)
      rw [hids idsU idsV hidsU hidsV, hreturn]
    · exact congrArg crossing (query_unread (fun array h => hq ⟨array, h⟩) u v)

end Query

section Sizes

variable {env : Env σ} {args : List Value}

theorem setLogFileSize_eq (u : Stale) :
    setLogFileSize (env.holding u) args = napi_set_int_result <$>
      env.invoke (.setLogFileSize (napi_get_value_int32_ (arg args 0) u.fileSize).2) := by
  rw [← bind_pure_comp]
  rfl

theorem int32_untouched {v : Value} (h : ∀ n, v ≠ .int32 n) (result : BitVec 32) :
    napi_get_value_int32_ v result = (.napi_invalid_arg, result) := by
  cases v with
  | int32 n => exact absurd rfl (h n)
  | _ => rfl

theorem setLogFileSize_calls (hu : env.unwrapped = true) (u : Stale) :
    nativeCalls (setLogFileSize (env.holding u) args).events =
      [.setLogFileSize (napi_get_value_int32_ (arg args 0) u.fileSize).2] := by
  rw [setLogFileSize_eq, Traced.map_events, env.invoke_eq, if_pos hu]
  rfl

theorem setLogFileSize_independent {R : Stale → Stale → Prop} {u v : Stale} (hR : R u v)
    (huv : u.fileSize ≠ v.fileSize) :
    Independent R .setLogFileSize env args ↔ Written env args .setLogFileSize := by
  constructor
  · intro h hu
    by_contra hint
    have hother : ∀ n, arg args 0 ≠ .int32 n := fun n hn => hint ⟨n, hn⟩
    have hcalls : nativeCalls (setLogFileSize (env.holding u) args).events =
        nativeCalls (setLogFileSize (env.holding v) args).events :=
      congrArg Prod.fst (h u v hR)
    rw [setLogFileSize_calls hu, setLogFileSize_calls hu, int32_untouched hother,
      int32_untouched hother] at hcalls
    exact huv (NativeCall.setLogFileSize.inj (List.singleton_inj.mp hcalls))
  · intro h u v _
    show crossing (setLogFileSize (env.holding u) args) =
      crossing (setLogFileSize (env.holding v) args)
    rw [setLogFileSize_eq, setLogFileSize_eq]
    cases hu : env.unwrapped with
    | false => simp only [env.invoke_eq, hu, Bool.false_eq_true, ↓reduceIte]
    | true =>
      obtain ⟨n, hn⟩ := h hu
      rw [hn]
      rfl

end Sizes

theorem run_unread (e : EntryPoint) (env : Env σ) (args : List Value) (u : Stale)
    (hsize : e ≠ .setLogFileSize) (hquery : e ≠ .queryPeersOnlineStatus) :
    e.run (env.holding u) args = e.run env args := by
  cases e with
  | setLogFileSize => exact absurd rfl hsize
  | queryPeersOnlineStatus => exact absurd rfl hquery
  | _ => rfl

theorem others_independent (R : Stale → Stale → Prop) (e : EntryPoint) (env : Env σ)
    (args : List Value) (hsize : e ≠ .setLogFileSize) (hquery : e ≠ .queryPeersOnlineStatus) :
    Independent R e env args := by
  intro u v _
  rw [run_unread e env args u hsize hquery, run_unread e env args v hsize hquery]

theorem locals_independent (e : EntryPoint) (env : Env σ) (args : List Value) :
    Independent SameHeap e env args ↔ Written env args e := by
  by_cases hsize : e = .setLogFileSize
  · subst hsize
    exact @setLogFileSize_independent σ env args SameHeap ⟨0, 0, fun _ _ => 0⟩
      ⟨1, 0, fun _ _ => 0⟩ rfl (by decide)
  · by_cases hquery : e = .queryPeersOnlineStatus
    · subst hquery
      rw [query_independent]
      constructor
      · intro h array hq
        obtain ⟨hid, -⟩ := h array hq ⟨0, 0, fun _ _ => 0⟩ ⟨0, 1, fun _ _ => 0⟩ rfl
        rw [Option.isSome_iff_ne_none]
        exact fun hnone => absurd (hid hnone) (by decide)
      · intro h array hq u v huv
        have hsome := Option.isSome_iff_ne_none.mp (h array hq)
        exact ⟨fun hnone => absurd hnone hsome, fun ids ids' => ids_same (Or.inl huv)⟩
    · have hwritten : Written env args e := by
        cases e <;> trivial
      exact iff_of_true (others_independent _ e env args hsize hquery) hwritten

theorem ids_filled {env : Env σ} {args : List Value} {array : ℕ} (hq : Queries env args array)
    (hsame : ∀ u v ids ids',
      Copies (env.holding u) 0 ids (env.engine.present env.heap array).elems →
      Copies (env.holding v) 0 ids' (env.engine.present env.heap array).elems → ids = ids')
    {w : Value} {text : List UInt8} (hw : w ∈ (env.engine.present env.heap array).elems)
    (ht : w.text = some text) : MAX_ACCOUNT_LENGTH ≤ text.length+1 := by
  by_contra hshort
  obtain ⟨k, hk⟩ := List.mem_iff_getElem?.mp hw
  obtain ⟨ids, hids, -⟩ := query_crossing hq ⟨0, 0, fun _ _ => 0⟩
  obtain ⟨ids', hids', -⟩ := query_crossing hq ⟨0, 0, fun _ _ => 1⟩
  obtain rfl := hsame _ _ ids ids' hids hids'
  obtain ⟨block, hb, hget⟩ := hids.get k w hk
  obtain ⟨block', hb', hget'⟩ := hids'.get k w hk
  obtain rfl : block = block' := Option.some.inj (hb.symm.trans hb')
  have hlen : block.length < MAX_ACCOUNT_LENGTH := by
    rw [buffer_length hb ht]
    omega
  have hcopied := Option.some.inj (hget.symm.trans hget')
  have hbyte := congrArg (·[block.length]?) hcopied
  simp only [copied_short _ block hlen, Env.holding] at hbyte
  exact absurd hbyte (by decide)

theorem memory_independent (e : EntryPoint) (env : Env σ) (args : List Value) :
    Independent (fun _ _ => True) e env args ↔ Written env args e ∧ Filled env args e := by
  have hlocals : Independent (fun _ _ => True) e env args → Written env args e := fun h =>
    (locals_independent e env args).mp fun u v _ => h u v trivial
  by_cases hquery : e = .queryPeersOnlineStatus
  · subst hquery
    constructor
    · intro h
      refine ⟨hlocals h, ?_⟩
      intro array hq w hw text ht
      exact ids_filled hq (fun u v => ((query_independent.mp h) array hq u v trivial).2) hw ht
    · rintro ⟨hwritten, hfilled⟩
      rw [query_independent]
      intro array hq u v _
      have hsome := Option.isSome_iff_ne_none.mp (hwritten array hq)
      exact ⟨fun hnone => absurd hnone hsome,
        fun ids ids' => ids_same (Or.inr (hfilled array hq))⟩
  · have hfilled : Filled env args e := by
      cases e <;> trivial
    refine ⟨fun h => ⟨hlocals h, hfilled⟩, fun h => ?_⟩
    by_cases hsize : e = .setLogFileSize
    · subst hsize
      exact (@setLogFileSize_independent σ env args _ ⟨0, 0, fun _ _ => 0⟩
        ⟨1, 0, fun _ _ => 0⟩ trivial (by decide)).mpr h.1
    · exact others_independent _ e env args hsize hquery

/-- For every entry point, argument list and outcome: what is found in the locals
does not cross just if they have been written, and nothing found in memory does
just if the copied ids fill their copies too. -/
theorem uninitialised_crossing (e : EntryPoint) (env : Env σ) (args : List Value) :
    (Independent SameHeap e env args ↔ Written env args e) ∧
    (Independent (fun _ _ => True) e env args ↔ Written env args e ∧ Filled env args e) :=
  ⟨locals_independent e env args, memory_independent e env args⟩

/-- A number that is no int32 forwards the size found in memory, and a query that
fails returns the request id found there. -/
theorem locals_forwarded :
    ¬ Independent SameHeap .setLogFileSize (plainEnv []) [.number] ∧
    ¬ Independent SameHeap .queryPeersOnlineStatus { plainEnv [] with assigned := none }
      [.array 0] := by
  refine ⟨?_, ?_⟩
  · intro h
    have hcalls := congrArg Prod.fst (h ⟨0, 0, fun _ _ => 0⟩ ⟨1, 0, fun _ _ => 0⟩ rfl)
    revert hcalls
    decide
  · intro h
    have hresult := Except.ok.inj
      (congrArg Prod.snd (h ⟨0, 0, fun _ _ => 0⟩ ⟨0, 1, fun _ _ => 0⟩ rfl))
    revert hresult
    decide

end AgoraRtm.EntryPoints
