import AgoraRtm.Ownership
import AgoraRtm.PeerQuery
import Mathlib.Algebra.GroupWithZero.Nat

/-!
# Native objects that a call acquires

Four entry points acquire native objects. They are written again here with what
they do to these objects; without that they are the entry points. A `NodeString`
frees its buffer at the end of its scope, also where a `break` leaves it. A call
that faults ends the process, so a run is one of calls that return.
-/

set_option autoImplicit false

namespace AgoraRtm.Resources
open EntryPoints NodeApi Ownership Runs

variable {σ : Type} {α : Type}

inductive Resource where
  | nodeString (i : ℕ)
  | message
  | idBuffer (k : ℕ)
  | handler
  deriving DecidableEq, Repr

abbrev Owning := Traced (Event ⊕ Deed Resource) Fault

def act (x : Run α) : Owning α := Traced.among x

def own (d : Deed Resource) : Owning PUnit := Traced.emit (.inr d)

/-- A `NodeString` local that holds the text of `v` while `body` runs. -/
def withNodeString (env : Env σ) (i : ℕ) (v : Value) (body : CharPtr → Owning α) : Owning α := do
  let p ← act (env.nodeString i v)
  match p with
  | none => body none
  | some block => do
    own (.acquire (.nodeString i))
    let a ← body (some block)
    own (.release (.nodeString i))
    return a

def sendMessageToPeer (env : Env σ) (args : List Value) : Owning Result :=
  withNodeString env 0 (arg args 0) fun peer_id =>
    withNodeString env 1 (arg args 1) fun message => do
      let _rtm_message ← act (env.invoke .createMessage)
      if env.createsMessage then
        own (.acquire .message)
        act (Traced.emit (.call (.setText message)))
        let result ← act (env.invoke (.sendMessageToPeer peer_id))
        return napi_set_bool_result (intToBool result)
      else act (Traced.fault .nullObject)

def createChannel (env : Env σ) (args : List Value) : Owning Result :=
  withNodeString env 0 (arg args 0) fun cname => do
    own (.acquire .handler)
    act (Traced.emit (.create .handler))
    let _channel ← act (env.invoke (.createChannel cname))
    if env.createsChannel then
      own (.handOver .handler)
      return .channel
    else return .null

def copyId (env : Env σ) (k : ℕ) (peerId : Value) : Owning Block :=
  withNodeString env k peerId fun sPeerId => do
    own (.acquire (.idBuffer k))
    act (Traced.emit (.create .idBuffer))
    act (env.memcpy k sPeerId MAX_ACCOUNT_LENGTH)

def copyIds (env : Env σ) (array : ℕ) : ℕ → ℕ → ℕ → σ → Owning (List Block)
  | 0, _, _, _ => return []
  | fuel+1, i, k, heap =>
    if i < (env.engine.Length heap array).toNat then
      match env.engine.Has heap array i with
      | none => act (Traced.fault .emptyResult)
      | some (false, heap) => copyIds env array fuel (i+1) k heap
      | some (true, heap) =>
        match env.engine.Get heap array i with
        | none => act (Traced.fault .emptyResult)
        | some (peerId, heap) => do
          let cPeerId ← copyId env k peerId
          let peerIds ← copyIds env array fuel (i+1) (k+1) heap
          return cPeerId :: peerIds
    else return []

def queryPeersOnlineStatus (env : Env σ) (args : List Value) : Owning Result := do
  if args.length < 1 then return .threw "expected 1 argument but received 0"
  match arg args 0 with
  | .array array =>
    if env.unwrapped then
      let length := env.engine.Length env.heap array
      let peerIds ← copyIds env array (2^32) 0 0 env.heap
      let _result ← act (env.invoke (.queryPeersOnlineStatus peerIds length))
      let requestId := env.assigned.getD env.requestId
      return napi_set_int_result (requestId.setWidth 32)
    else return .threw "rtm service not intialized"
  | _ => return .threw "expected array argument"

def sendMessage (env : Env σ) (args : List Value) : Owning Result :=
  withNodeString env 0 (arg args 0) fun message => do
    if env.unwrapped then
      let _rtm_message ← act (env.invoke .createMessage)
      if env.createsMessage then
        own (.acquire .message)
        act (Traced.emit (.call (.setText message)))
        let result ← act (env.invoke .sendMessage)
        return napi_set_int_result result
      else return napi_set_int_result (-1)
    else return napi_set_int_result (-1)

inductive Acquirer where
  | sendMessageToPeer
  | createChannel
  | queryPeersOnlineStatus
  | sendMessage
  deriving DecidableEq, Repr

def Acquirer.entryPoint : Acquirer → EntryPoint
  | .sendMessageToPeer => .sendMessageToPeer
  | .createChannel => .createChannel
  | .queryPeersOnlineStatus => .queryPeersOnlineStatus
  | .sendMessage => .sendMessage

structure Call (σ : Type) where
  acquirer : Acquirer
  env : Env σ
  args : List Value

def Call.run (c : Call σ) : Owning Result :=
  match c.acquirer with
  | .sendMessageToPeer => Resources.sendMessageToPeer c.env c.args
  | .createChannel => Resources.createChannel c.env c.args
  | .queryPeersOnlineStatus => Resources.queryPeersOnlineStatus c.env c.args
  | .sendMessage => Resources.sendMessage c.env c.args

section Erasure

variable (env : Env σ)

@[simp] theorem left_act (x : Run α) : Traced.left (act x) = x := Traced.left_among x

@[simp] theorem left_own (d : Deed Resource) : Traced.left (own d) = pure ⟨⟩ := rfl

@[simp] theorem left_withNodeString (i : ℕ) (v : Value) (body : CharPtr → Owning α) :
    Traced.left (withNodeString env i v body) =
      env.nodeString i v >>= fun p => Traced.left (body p) := by
  rw [withNodeString, Traced.left_bind, left_act]
  congr 1
  funext p
  cases p <;> simp

theorem left_copyId (k : ℕ) (peerId : Value) :
    Traced.left (copyId env k peerId) = env.copyId k peerId := by
  simp [copyId, Env.copyId]

def copyAll (env : Env σ) (done : Bool) : ℕ → List Value → Owning (List Block)
  | _, [] => if done then return [] else act (Traced.fault .emptyResult)
  | k, v :: elems => do
    let cPeerId ← copyId env k v
    let peerIds ← copyAll env done (k+1) elems
    return cPeerId :: peerIds

theorem copyIds_eq (array fuel i k : ℕ) (heap : σ) :
    copyIds env array fuel i k heap =
      copyAll env (env.engine.reading array fuel i heap).done k
        (env.engine.reading array fuel i heap).elems := by
  induction fuel generalizing i k heap with
  | zero => rfl
  | succ fuel ih =>
    simp only [copyIds, Engine.reading]
    split
    · cases env.engine.Has heap array i with
      | none => rfl
      | some p =>
        obtain ⟨has, heap'⟩ := p
        cases has with
        | false => exact ih (i+1) k heap'
        | true =>
          simp only
          cases env.engine.Get heap' array i with
          | none => rfl
          | some q => simp only [ih, copyAll]
    · rfl

theorem left_copyAll (done : Bool) (elems : List Value) (k : ℕ) :
    Traced.left (copyAll env done k elems) = env.copyAll done k elems := by
  induction elems generalizing k with
  | nil => cases done <;> rfl
  | cons v elems ih => simp [copyAll, Env.copyAll, left_copyId, ih]

theorem left_copyIds (array fuel i k : ℕ) (heap : σ) :
    Traced.left (copyIds env array fuel i k heap) = env.copyIds array fuel i k heap := by
  rw [copyIds_eq, env.copyIds_eq, left_copyAll]

theorem left_query (args : List Value) :
    Traced.left (queryPeersOnlineStatus env args) =
      EntryPoints.queryPeersOnlineStatus env args := by
  simp only [queryPeersOnlineStatus, EntryPoints.queryPeersOnlineStatus]
  split
  · rfl
  · cases arg args 0 with
    | array array => cases hu : env.unwrapped <;> simp [left_copyIds]
    | _ => rfl

/-- Without the deeds each call is what its entry point does. -/
theorem left_run (c : Call σ) : Traced.left c.run = c.acquirer.entryPoint.run c.env c.args := by
  obtain ⟨acquirer, env, args⟩ := c
  cases acquirer with
  | sendMessageToPeer =>
    show Traced.left (sendMessageToPeer env args) = EntryPoints.sendMessageToPeer env args
    cases hm : env.createsMessage <;>
      simp [sendMessageToPeer, EntryPoints.sendMessageToPeer, hm]
  | createChannel =>
    show Traced.left (createChannel env args) = EntryPoints.createChannel env args
    cases hc : env.createsChannel <;> simp [createChannel, EntryPoints.createChannel, hc]
  | queryPeersOnlineStatus => exact left_query env args
  | sendMessage =>
    show Traced.left (sendMessage env args) = EntryPoints.sendMessage env args
    cases hu : env.unwrapped with
    | false => simp [sendMessage, EntryPoints.sendMessage, hu]
    | true =>
      cases hm : env.createsMessage <;> simp [sendMessage, EntryPoints.sendMessage, hu, hm]

end Erasure

def deeds (x : Owning α) : List (Deed Resource) := (Traced.right x).events

def stringDeeds (i : ℕ) (p : CharPtr) (log : List (Deed Resource)) : List (Deed Resource) :=
  match p with
  | none => log
  | some _ => .acquire (.nodeString i) :: log ++ [.release (.nodeString i)]

section Deeds

variable {env : Env σ} {args : List Value}

theorem deeds_bind {β : Type} {x : Owning α} {a : α} (h : x.result = .ok a) (f : α → Owning β) :
    deeds (x >>= f) = deeds x ++ deeds (f a) := by
  have hright : (Traced.right x).result = .ok a := h
  rw [deeds, Traced.right_bind, Traced.bind_of_ok hright]
  rfl

theorem withNodeString_deeds {i : ℕ} {v : Value} {body : CharPtr → Owning α} {a : α}
    (h : (withNodeString env i v body).result = .ok a) :
    (body (extracted (env.calloc i) v)).result = .ok a ∧
    deeds (withNodeString env i v body) =
      stringDeeds i (extracted (env.calloc i) v) (deeds (body (extracted (env.calloc i) v))) := by
  have hp : act (env.nodeString i v) = pure (extracted (env.calloc i) v) := by
    rw [Env.nodeString_eq]
    rfl
  rw [withNodeString, hp, pure_bind] at h ⊢
  cases hb : extracted (env.calloc i) v with
  | none =>
    rw [hb] at h
    exact ⟨h, rfl⟩
  | some block =>
    rw [hb] at h
    obtain ⟨-, -, h⟩ := Traced.bind_result.mp h
    obtain ⟨a', ha', h⟩ := Traced.bind_result.mp h
    obtain ⟨-, -, h⟩ := Traced.bind_result.mp h
    obtain rfl : a' = a := Except.ok.inj h
    refine ⟨ha', ?_⟩
    rw [deeds_bind rfl, deeds_bind ha']
    rfl

theorem leaves_string {log : List (Deed Resource)} {live : Finset Resource} {i : ℕ}
    (h : Leaves log live) (hi : .nodeString i ∉ resources log) (p : CharPtr) :
    Leaves (stringDeeds i p log) live := by
  cases p with
  | none => exact h
  | some block => exact h.around hi

theorem stringDeeds_resources {i : ℕ} {p : CharPtr} {log : List (Deed Resource)} {r : Resource}
    (h : r ∈ resources (stringDeeds i p log)) : r = .nodeString i ∨ r ∈ resources log := by
  cases p with
  | none => exact Or.inr h
  | some block =>
    simp only [stringDeeds, resources_append, List.mem_append] at h
    rcases h with h | h
    · exact (List.mem_cons.mp h).imp_left id
    · exact Or.inl (List.mem_singleton.mp h)

theorem deeds_act (x : Run α) : deeds (act x) = [] := by
  rw [deeds, act, Traced.right_among]

theorem deeds_own (d : Deed Resource) : deeds (own d) = [d] := rfl

theorem deeds_pure (a : α) : deeds (pure a : Owning α) = [] := rfl

theorem deeds_after {β : Type} {x : Run α} {a : α} (h : x.result = .ok a) (f : α → Owning β) :
    deeds (act x >>= f) = deeds (f a) := by
  have hact : (act x).result = .ok a := h
  rw [deeds_bind hact, deeds_act, List.nil_append]

theorem message_deeds (hu : env.unwrapped = true) (text : CharPtr) (c : NativeCall)
    (g : BitVec 32 → Result) :
    deeds (do
      own (.acquire .message)
      act (Traced.emit (.call (.setText text)))
      let result ← act (env.invoke c)
      return g result) = [.acquire .message] := by
  have hc : (env.invoke c).result = .ok (env.status c) := by simp [hu]
  rw [deeds_bind rfl, deeds_own, deeds_after rfl, deeds_after hc]
  rfl

theorem sendMessageToPeer_leaves {v : Result} (h : (sendMessageToPeer env args).result = .ok v) :
    Leaves (deeds (sendMessageToPeer env args)) {.message} := by
  obtain ⟨h₀, hdeeds₀⟩ := withNodeString_deeds h
  obtain ⟨h₁, hdeeds₁⟩ := withNodeString_deeds h₀
  obtain ⟨n, hn, h₁⟩ := Traced.bind_result.mp h₁
  have hu := ((env.invoke_result _ _).mp hn).1
  have hm : env.createsMessage = true := by
    by_contra hm
    simp only [hm, ↓reduceIte] at h₁
    cases h₁
  rw [sendMessageToPeer, hdeeds₀, hdeeds₁, deeds_after hn, if_pos hm, message_deeds hu]
  refine leaves_string (leaves_string (leaves_acquire Resource.message) (by decide) _) ?_ _
  intro hmem
  rcases stringDeeds_resources hmem with h | h <;> revert h <;> decide

theorem createChannel_leaves {v : Result} (h : (createChannel env args).result = .ok v) :
    Leaves (deeds (createChannel env args))
      (if env.createsChannel then ∅ else {.handler}) := by
  obtain ⟨h₀, hdeeds₀⟩ := withNodeString_deeds h
  obtain ⟨-, -, h₀⟩ := Traced.bind_result.mp h₀
  obtain ⟨-, -, h₀⟩ := Traced.bind_result.mp h₀
  obtain ⟨n, hn, -⟩ := Traced.bind_result.mp h₀
  rw [createChannel, hdeeds₀, deeds_bind rfl, deeds_own, deeds_after rfl, deeds_after hn]
  cases hc : env.createsChannel with
  | true => exact leaves_string (leaves_handOver Resource.handler) (by decide) _
  | false => exact leaves_string (leaves_acquire Resource.handler) (by decide) _

theorem sendMessage_leaves {v : Result} (h : (sendMessage env args).result = .ok v) :
    Leaves (deeds (sendMessage env args))
      (if env.unwrapped ∧ env.createsMessage then {.message} else ∅) := by
  obtain ⟨h₀, hdeeds₀⟩ := withNodeString_deeds h
  rw [sendMessage, hdeeds₀]
  cases hu : env.unwrapped with
  | false => exact leaves_string leaves_nil (by decide) _
  | true =>
    have hn : (env.invoke .createMessage).result = .ok (env.status .createMessage) := by simp [hu]
    rw [if_pos rfl, deeds_after hn]
    cases hm : env.createsMessage with
    | false => exact leaves_string leaves_nil (by decide) _
    | true =>
      rw [if_pos rfl, message_deeds hu]
      exact leaves_string (leaves_acquire Resource.message) (by decide) _

def idDeeds : ℕ → ℕ → List (Deed Resource)
  | _, 0 => []
  | k, n+1 =>
    (.acquire (.nodeString k) :: [.acquire (.idBuffer k)] ++ [.release (.nodeString k)]) ++
      idDeeds (k+1) n

def idBuffers (k n : ℕ) : Finset Resource := ((List.range' k n).map Resource.idBuffer).toFinset

theorem idBuffers_card (k n : ℕ) : (idBuffers k n).card = n := by
  have hnodup : ((List.range' k n).map Resource.idBuffer).Nodup :=
    List.Nodup.map (fun _ _ h => Resource.idBuffer.inj h) List.nodup_range'
  rw [idBuffers, List.toFinset_card_of_nodup hnodup, List.length_map, List.length_range']

theorem idDeeds_resources {k n : ℕ} {r : Resource} (h : r ∈ resources (idDeeds k n)) :
    ∃ j, k ≤ j ∧ (r = .nodeString j ∨ r = .idBuffer j) := by
  induction n generalizing k with
  | zero => cases h
  | succ n ih =>
    rw [idDeeds, resources_append, List.mem_append] at h
    rcases h with h | h
    · refine ⟨k, Nat.le_refl k, ?_⟩
      simp only [resources, Deed.resource, List.cons_append, List.nil_append, List.map_cons,
        List.map_nil, List.mem_cons, List.not_mem_nil, or_false] at h
      rcases h with h | h | h
      · exact Or.inl h
      · exact Or.inr h
      · exact Or.inl h
    · obtain ⟨j, hj, hr⟩ := ih h
      exact ⟨j, by omega, hr⟩

theorem idDeeds_leaves (k n : ℕ) : Leaves (idDeeds k n) (idBuffers k n) := by
  induction n generalizing k with
  | zero => exact leaves_nil
  | succ n ih =>
    have hone : Leaves (.acquire (.nodeString k) :: [.acquire (.idBuffer k)] ++
        [.release (.nodeString k)]) {Resource.idBuffer k} :=
      (leaves_acquire (Resource.idBuffer k)).around (by simp [resources, Deed.resource])
    have hboth := hone.append (ih (k+1)) ?_
    · rw [idDeeds]
      have hbuffers : idBuffers k (n+1) = {Resource.idBuffer k} ∪ idBuffers (k+1) n := by
        rw [idBuffers, List.range'_succ, List.map_cons, List.toFinset_cons, Finset.insert_eq]
        rfl
      rw [hbuffers]
      exact hboth
    · intro r hr
      obtain ⟨j, hj, hr⟩ := idDeeds_resources hr
      have hne : j ≠ k := by omega
      rcases hr with rfl | rfl <;> simp [resources, Deed.resource, hne]

theorem copyId_deeds {k : ℕ} {v : Value} {block : Block}
    (h : (copyId env k v).result = .ok block) :
    deeds (copyId env k v) =
      .acquire (.nodeString k) :: [.acquire (.idBuffer k)] ++ [.release (.nodeString k)] := by
  obtain ⟨h₀, hdeeds⟩ := withNodeString_deeds h
  rw [copyId, hdeeds]
  cases hb : extracted (env.calloc k) v with
  | none =>
    rw [hb] at h₀
    cases h₀
  | some buffer => rfl

theorem copyAll_deeds {done : Bool} {elems : List Value} {k : ℕ} {ids : List Block}
    (h : (copyAll env done k elems).result = .ok ids) :
    deeds (copyAll env done k elems) = idDeeds k elems.length := by
  induction elems generalizing k ids with
  | nil => cases done <;> rfl
  | cons v elems ih =>
    obtain ⟨block, hblock, h⟩ := Traced.bind_result.mp h
    obtain ⟨rest, hrest, -⟩ := Traced.bind_result.mp h
    rw [copyAll, deeds_bind hblock, copyId_deeds hblock, deeds_bind hrest, ih hrest, deeds_pure,
      List.append_nil]
    rfl

def copied (env : Env σ) (args : List Value) : ℕ :=
  match arg args 0 with
  | .array array => if env.unwrapped then (env.engine.present env.heap array).elems.length else 0
  | _ => 0

theorem query_copies {array : ℕ} (ha : arg args 0 = .array array) (hu : env.unwrapped = true) :
    queryPeersOnlineStatus env args = (do
      let peerIds ← copyAll env (env.engine.present env.heap array).done 0
        (env.engine.present env.heap array).elems
      let _result ← act (env.invoke
        (.queryPeersOnlineStatus peerIds (env.engine.Length env.heap array)))
      return napi_set_int_result ((env.assigned.getD env.requestId).setWidth 32)) := by
  simp only [queryPeersOnlineStatus, args_given ha, ↓reduceIte, ha, hu, copyIds_eq, Engine.present]

theorem query_leaves {v : Result} (h : (queryPeersOnlineStatus env args).result = .ok v) :
    Leaves (deeds (queryPeersOnlineStatus env args)) (idBuffers 0 (copied env args)) := by
  by_cases hquery : ∃ array, arg args 0 = .array array ∧ env.unwrapped = true
  · obtain ⟨array, ha, hu⟩ := hquery
    rw [query_copies ha hu] at h ⊢
    obtain ⟨ids, hids, h⟩ := Traced.bind_result.mp h
    obtain ⟨n, hn, -⟩ := Traced.bind_result.mp h
    have hcopied : copied env args = (env.engine.present env.heap array).elems.length := by
      rw [copied, ha]
      exact if_pos hu
    rw [deeds_bind hids, copyAll_deeds hids, deeds_after hn, deeds_pure, List.append_nil, hcopied]
    exact idDeeds_leaves 0 _
  · have hnone : deeds (queryPeersOnlineStatus env args) = [] ∧ copied env args = 0 := by
      rw [queryPeersOnlineStatus, copied]
      cases ha : arg args 0 with
      | array array =>
        have hu : ¬ env.unwrapped = true := fun hu => hquery ⟨array, ha, hu⟩
        simp only [hu]
        exact ⟨by split <;> rfl, rfl⟩
      | _ => exact ⟨by split <;> rfl, rfl⟩
    rw [hnone.1, hnone.2]
    exact leaves_nil

end Deeds

/-- The objects that stay live after a call. -/
def Call.leak (c : Call σ) : Finset Resource :=
  match c.acquirer with
  | .sendMessageToPeer => {.message}
  | .createChannel => if c.env.createsChannel then ∅ else {.handler}
  | .queryPeersOnlineStatus => idBuffers 0 (copied c.env c.args)
  | .sendMessage => if c.env.unwrapped ∧ c.env.createsMessage then {.message} else ∅

theorem call_leaves (c : Call σ) {v : Result} (h : c.run.result = .ok v) :
    Leaves (deeds c.run) c.leak := by
  obtain ⟨acquirer, env, args⟩ := c
  cases acquirer with
  | sendMessageToPeer => exact sendMessageToPeer_leaves h
  | createChannel => exact createChannel_leaves h
  | queryPeersOnlineStatus => exact query_leaves h
  | sendMessage => exact sendMessage_leaves h

/-- The call takes no way on which an object is left: no message is created, the
channel is, and no id is copied. -/
def Call.Clean (c : Call σ) : Prop :=
  match c.acquirer with
  | .sendMessageToPeer => False
  | .createChannel => c.env.createsChannel = true
  | .queryPeersOnlineStatus => ∀ array, arg c.args 0 = .array array → c.env.unwrapped = true →
      (c.env.engine.present c.env.heap array).elems = []
  | .sendMessage => c.env.unwrapped = true → c.env.createsMessage = false

theorem copied_zero (env : Env σ) (args : List Value) :
    copied env args = 0 ↔ ∀ array, arg args 0 = .array array → env.unwrapped = true →
      (env.engine.present env.heap array).elems = [] := by
  rw [copied]
  cases ha : arg args 0 with
  | array array => cases hu : env.unwrapped <;> simp
  | _ => simp

theorem leak_empty (c : Call σ) : c.leak = ∅ ↔ c.Clean := by
  obtain ⟨acquirer, env, args⟩ := c
  cases acquirer with
  | sendMessageToPeer => simp [Call.leak, Call.Clean]
  | createChannel => cases hc : env.createsChannel <;> simp [Call.leak, Call.Clean, hc]
  | queryPeersOnlineStatus =>
    show idBuffers 0 (copied env args) = ∅ ↔ _
    rw [← Finset.card_eq_zero, idBuffers_card]
    exact copied_zero env args
  | sendMessage =>
    cases hu : env.unwrapped <;> cases hm : env.createsMessage <;>
      simp [Call.leak, Call.Clean, hu, hm]

/-- What the calls of a process have done to the objects, each of which has the
number of its call. -/
structure Process where
  calls : ℕ
  log : List (Deed (ℕ × Resource))

def init : Process := ⟨0, []⟩

def step (p : Process) (c : Call σ) : Option Process :=
  match c.run.result with
  | .ok _ => some ⟨p.calls+1, p.log ++ (deeds c.run).map (Deed.map (p.calls, ·))⟩
  | .error _ => none

def leaks : ℕ → List (Call σ) → Finset (ℕ × Resource)
  | _, [] => ∅
  | n, c :: calls => c.leak.image (n, ·) ∪ leaks (n+1) calls

section Process

variable {p q : Process}

theorem step_returns {c : Call σ} (h : step p c = some q) :
    (∃ v, c.run.result = .ok v) ∧
    q = ⟨p.calls+1, p.log ++ (deeds c.run).map (Deed.map (p.calls, ·))⟩ := by
  rw [step] at h
  split at h
  · rename_i v hv
    exact ⟨⟨v, hv⟩, (Option.some.inj h).symm⟩
  · cases h

def Numbered (p : Process) : Prop := ∀ r ∈ resources p.log, r.1 < p.calls

theorem step_leaves {c : Call σ} (h : step p c = some q) (hp : Numbered p)
    {live : Finset (ℕ × Resource)} (hlive : Leaves p.log live) :
    Numbered q ∧ Leaves q.log (live ∪ c.leak.image (p.calls, ·)) := by
  obtain ⟨⟨v, hv⟩, rfl⟩ := step_returns h
  have hnumber : ∀ r ∈ resources ((deeds c.run).map (Deed.map (p.calls, ·))), r.1 = p.calls := by
    intro r hr
    rw [resources_map] at hr
    obtain ⟨r', -, rfl⟩ := List.mem_map.mp hr
    rfl
  have hleaves := (call_leaves c hv).map (Prod.mk_right_injective p.calls)
  refine ⟨?_, hlive.append hleaves ?_⟩
  · intro r hr
    rw [resources_append, List.mem_append] at hr
    rcases hr with hr | hr
    · exact Nat.lt_succ_of_lt (hp r hr)
    · exact Nat.lt_succ_of_le (Nat.le_of_eq (hnumber r hr))
  · intro r hr hr'
    have hlt := hp r hr'
    rw [hnumber r hr] at hlt
    exact Nat.lt_irrefl _ hlt

theorem run_leaves {calls : List (Call σ)} (h : run step always p calls = some q)
    (hp : Numbered p) {live : Finset (ℕ × Resource)} (hlive : Leaves p.log live) :
    Leaves q.log (live ∪ leaks p.calls calls) := by
  induction calls generalizing p live with
  | nil =>
    obtain rfl : p = q := by simpa [run] using h
    rwa [leaks, Finset.union_empty]
  | cons c calls ih =>
    simp only [run, always, ↓reduceIte] at h
    obtain ⟨u, hu, hq⟩ := Option.bind_eq_some_iff.mp h
    obtain ⟨hnumbered, hleaves⟩ := step_leaves hu hp hlive
    have hrest := ih hq hnumbered hleaves
    obtain ⟨-, rfl⟩ := step_returns hu
    rwa [Finset.union_assoc] at hrest

theorem leaks_number {n : ℕ} {calls : List (Call σ)} {r : ℕ × Resource}
    (h : r ∈ leaks n calls) : n ≤ r.1 := by
  induction calls generalizing n with
  | nil => exact absurd h (Finset.notMem_empty r)
  | cons c calls ih =>
    rcases Finset.mem_union.mp h with h | h
    · obtain ⟨r', -, rfl⟩ := Finset.mem_image.mp h
      exact Nat.le_refl n
    · exact Nat.le_of_succ_le (ih h)

theorem leaks_card (n : ℕ) (calls : List (Call σ)) :
    (leaks n calls).card = (calls.map fun c => c.leak.card).sum := by
  induction calls generalizing n with
  | nil => rfl
  | cons c calls ih =>
    have hdisjoint : Disjoint (c.leak.image (n, ·)) (leaks (n+1) calls) := by
      rw [Finset.disjoint_left]
      intro r hr hr'
      obtain ⟨r', -, rfl⟩ := Finset.mem_image.mp hr
      exact absurd (leaks_number hr') (by simp)
    rw [leaks, Finset.card_union_of_disjoint hdisjoint,
      Finset.card_image_of_injective _ (Prod.mk_right_injective n), ih]
    rfl

theorem leaks_empty (n : ℕ) (calls : List (Call σ)) :
    leaks n calls = ∅ ↔ ∀ c ∈ calls, c.Clean := by
  induction calls generalizing n with
  | nil => simp [leaks]
  | cons c calls ih => simp [leaks, Finset.union_eq_empty, leak_empty, ih]

end Process

/-- A run of calls is balanced just if each of them is clean. No object is ever
released twice, and the objects that are live are those that the calls left. -/
theorem resources_balance (calls : List (Call σ)) (p : Process)
    (h : run step always init calls = some p) :
    (Balanced p.log ↔ ∀ c ∈ calls, c.Clean) ∧
    ∃ live, execute ∅ p.log = some live ∧
      live.card = (calls.map fun c => c.leak.card).sum := by
  have hnumbered : Numbered init := fun r hr => absurd hr List.not_mem_nil
  have hleaves := run_leaves h hnumbered leaves_nil
  rw [Finset.empty_union] at hleaves
  refine ⟨?_, _, hleaves.runs, leaks_card 0 calls⟩
  rw [hleaves.balanced_iff]
  exact leaks_empty 0 calls

def channelCall : Call Unit := ⟨.createChannel, plainEnv [], [ab]⟩

def messageCall : Call Unit := ⟨.sendMessage, plainEnv [], [ab]⟩

theorem resources_balance_channel :
    Balanced (final step always init [channelCall]).log ∧
    ¬ Balanced (final step always init [channelCall, messageCall]).log := by
  refine ⟨(resources_balance [channelCall] _ rfl).1.mpr ?_, fun hbalanced => ?_⟩
  · simp [channelCall, Call.Clean, plainEnv]
  · have hclean := (resources_balance [channelCall, messageCall] _ rfl).1.mp hbalanced
      messageCall (by simp)
    exact absurd (hclean rfl) (by decide)

/-- A message that is sent to a channel is never released. -/
theorem message_leaked :
    ¬ ∀ (calls : List (Call Unit)) (p : Process), run step always init calls = some p →
      Balanced p.log := by
  intro h
  have hreleased := h [messageCall] (final step always init [messageCall]) rfl (0, .message)
    (by decide) (by decide)
  revert hreleased
  decide

end AgoraRtm.Resources
