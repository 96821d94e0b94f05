import AgoraRtm.PeerQuery
import AgoraRtm.Reception
import Mathlib.Algebra.Group.Int.Defs

/-!
# Request and message ids

An id of 64 bits comes to JavaScript as an int32, cut to its low bits, or as a
double, exact up to 2^53. The id of a query takes both ways, the one as the
returned value and the other in its event; that of a message takes the one in
the controller's event and the other in a channel's.
-/

set_option autoImplicit false

namespace AgoraRtm.Identifiers
open NodeApi EntryPoints NativeEvents Delivery NativeSystem Reception

variable {σ : Type}

section Conversions

theorem roundToDouble_exact (n : ℕ) (h : n ≤ 2^53) : roundToDouble n = n := by
  by_cases hn : n = 2^53
  · subst hn
    decide
  · have hlt : n < 2^53 := by omega
    unfold roundToDouble
    exact if_pos hlt

theorem doubleOfInt_exact (n : ℤ) (h0 : 0 ≤ n) (h : n ≤ 2^53) : doubleOfInt n = n := by
  rw [doubleOfInt, if_pos h0, roundToDouble_exact n.toNat (by omega)]
  omega

theorem toInt_of_nonneg (b : BitVec 64) (h : 0 ≤ b.toInt) : b.toInt = b.toNat := by
  have hlt := b.isLt
  rw [BitVec.toInt_eq_toNat_cond] at h ⊢
  split at h <;> split <;> omega

theorem int32_exact (b : BitVec 64) (h : 0 ≤ b.toInt) :
    (b.setWidth 32).toInt = b.toInt ↔ b.toInt < 2^31 := by
  have hb := toInt_of_nonneg b h
  rw [BitVec.toInt_setWidth, hb]
  simp only [Int.bmod]
  omega

theorem int32_collide (b b' : BitVec 64) (h : 0 ≤ b.toInt) (h' : 0 ≤ b'.toInt) :
    (b.setWidth 32).toInt = (b'.setWidth 32).toInt ↔ b.toInt % 2^32 = b'.toInt % 2^32 := by
  rw [BitVec.toInt_setWidth, BitVec.toInt_setWidth, toInt_of_nonneg b h, toInt_of_nonneg b' h']
  simp only [Int.bmod]
  omega

end Conversions

def carries (n : Notice) (id : ℤ) : Prop := n.2.head? = some (.scalar (.number id))

theorem carries_unique {n : Notice} {x y : ℤ} (hx : carries n x) (hy : carries n y) : x = y := by
  have h := hx.symm.trans hy
  simpa using h

section Events

variable {m later : Memory} {t : Task} {n : Notice}

theorem queryResult_carries {requestId : BitVec 64} {peersStatus : List PeerOnlineStatus}
    {errorCode : BitVec 32}
    (hp : (Callback.controller
      (.onQueryPeersOnlineStatusResult requestId peersStatus errorCode)).post m = some t)
    (hn : received .controller later t = some n) : carries n (doubleOfInt requestId.toInt) := by
  obtain ⟨hargv, -⟩ := received_some hp hn
  obtain ⟨names, -, ht⟩ := Option.bind_eq_some_iff.mp hp
  obtain rfl := Option.some.inj ht
  rw [Task.argv, List.mapM_cons] at hargv
  obtain ⟨v, hv, hargv⟩ := Option.bind_eq_some_iff.mp hargv
  obtain ⟨vs, -, hargv⟩ := Option.bind_eq_some_iff.mp hargv
  obtain rfl := Option.some.inj hv
  rw [carries, ← Option.some.inj hargv]
  rfl

theorem controllerState_carries {messageId : BitVec 64} {state : BitVec 32}
    (hp : (Callback.controller (.onSendMessageResult messageId state)).post m = some t)
    (hn : received .controller later t = some n) :
    carries n (messageId.setWidth 32).toInt := by
  obtain ⟨hargv, -⟩ := received_some hp hn
  obtain rfl := Option.some.inj hp
  rw [carries, ← Option.some.inj hargv]
  rfl

theorem channelState_carries {messageId : BitVec 64} {state : BitVec 32}
    (hp : (Callback.channel (.onSendMessageResult messageId state)).post m = some t)
    (hn : received .channel later t = some n) : carries n (doubleOfInt messageId.toNat) := by
  obtain ⟨hargv, -⟩ := received_some hp hn
  obtain rfl := Option.some.inj hp
  rw [carries, ← Option.some.inj hargv]
  rfl

end Events

/-- A query whose native call succeeds with the id `r`, and what it returns. -/
structure Succeeds (env : Env σ) (args : List Value) (r : BitVec 64) (v : Result) : Prop where
  called : ∃ ids count,
    .call (.queryPeersOnlineStatus ids count) ∈ (queryPeersOnlineStatus env args).events ∧
    env.status (.queryPeersOnlineStatus ids count) = 0
  assigned : env.assigned = some r
  returned : (queryPeersOnlineStatus env args).result = .ok v
  lower : 0 ≤ r.toInt
  upper : r.toInt ≤ 2^53

theorem Succeeds.value {env : Env σ} {args : List Value} {r : BitVec 64} {v : Result}
    (h : Succeeds env args r v) : v = .number (r.setWidth 32).toInt := by
  obtain ⟨ids, count, hcall, -⟩ := h.called
  have harray : ∃ array, arg args 0 = .array array := by
    by_contra hno
    rw [query_no_array fun array ha => hno ⟨array, ha⟩] at hcall
    cases hcall
  obtain ⟨array, ha⟩ := harray
  cases hu : env.unwrapped with
  | false =>
    rw [query_no_object ha hu] at hcall
    cases hcall
  | true =>
    have hv := h.returned
    rw [query_eq ha hu, Traced.bind_result] at hv
    obtain ⟨peerIds, -, hv⟩ := hv
    rw [h.assigned] at hv
    have hok : Except.ok (napi_set_int_result (r.setWidth 32)) = Except.ok v := hv
    exact (Except.ok.inj hok).symm

/-- The returned number is the one in the event exactly for ids below 2^31; two
queries get the same number exactly where their ids agree modulo 2^32. -/
theorem query_correlated (env : Env σ) (args : List Value) (r : BitVec 64) (v : Result)
    (h : Succeeds env args r v) :
    (∀ (m later : Memory) (peersStatus : List PeerOnlineStatus) (errorCode : BitVec 32) (t : Task)
      (n : Notice),
      (Callback.controller (.onQueryPeersOnlineStatusResult r peersStatus errorCode)).post m =
        some t →
      received .controller later t = some n →
      ((∃ id, v = .number id ∧ carries n id) ↔ r.toInt < 2^31)) ∧
    ∀ (τ : Type) (env' : Env τ) (args' : List Value) (r' : BitVec 64) (v' : Result),
      Succeeds env' args' r' v' → (v = v' ↔ r.toInt % 2^32 = r'.toInt % 2^32) := by
  constructor
  · intro m later peersStatus errorCode t n hp hn
    have hevent := queryResult_carries hp hn
    rw [doubleOfInt_exact _ h.lower h.upper] at hevent
    rw [← int32_exact r h.lower, h.value]
    constructor
    · rintro ⟨id, hid, hcarries⟩
      rw [Result.number.inj hid]
      exact carries_unique hcarries hevent
    · intro hsame
      exact ⟨_, rfl, hsame ▸ hevent⟩
  · intro τ env' args' r' v' h'
    rw [h.value, h'.value, Result.number.injEq]
    exact int32_collide r r' h.lower h'.lower

def assigning (r : BitVec 64) : Env Unit := { plainEnv [] with assigned := some r }

theorem succeeds_assigning (r : BitVec 64) (h : 0 ≤ r.toInt) (h' : r.toInt ≤ 2^53) :
    Succeeds (assigning r) [.array 0] r (.number (r.setWidth 32).toInt) where
  called := ⟨[], 0, List.Mem.head _, rfl⟩
  assigned := rfl
  returned := rfl
  lower := h
  upper := h'

def resultOf (r : BitVec 64) : Callback := .controller (.onQueryPeersOnlineStatusResult r [] 0)

theorem query_correlated_7 :
    (∃ id, Result.number 7 = .number id ∧
      carries ("QueryPeersOnlineStatusResult",
        [.scalar (.number 7), .scalar (.number 0), .records []]) id) ∧
    Result.number 7 = .number ((4294967303#64).setWidth 32).toInt :=
  ⟨((query_correlated (assigning 7) [.array 0] 7 (.number 7)
      (succeeds_assigning 7 (by decide) (by decide))).1 (fun _ => none) (fun _ => none) [] 0 _ _
      rfl rfl).mpr (by decide),
    ((query_correlated (assigning 7) [.array 0] 7 (.number 7)
      (succeeds_assigning 7 (by decide) (by decide))).2 Unit (assigning 4294967303) [.array 0]
      4294967303 _ (succeeds_assigning 4294967303 (by decide) (by decide))).mpr (by decide)⟩

/-- A query with the id 2^31 returns its negative, and its event brings 2^31. -/
theorem query_id_negative :
    ∃ v n, Succeeds (assigning 2147483648) [.array 0] 2147483648 v ∧
      ((resultOf 2147483648).post fun _ => none).bind (received .controller fun _ => none) =
        some n ∧
      ¬ ∃ id, v = .number id ∧ carries n id := by
  refine ⟨.number ((2147483648#64).setWidth 32).toInt, ("QueryPeersOnlineStatusResult",
    [.scalar (.number 2147483648), .scalar (.number 0), .records []]),
    succeeds_assigning 2147483648 (by decide) (by decide), rfl, ?_⟩
  rintro ⟨id, hid, hcarries⟩
  have hsame := carries_unique hcarries (y := 2147483648) rfl
  rw [← Result.number.inj hid] at hsame
  revert hsame
  decide

/-- The id of a message as the controller's event and a channel's bring it: both
bring it exactly for ids below 2^31, where the two agree; the channel's is always
exact, the controller's the same for ids that agree modulo 2^32. -/
theorem message_id_delivered (messageId : BitVec 64) (state state' : BitVec 32)
    (m m' later later' : Memory) (t t' : Task) (n n' : Notice)
    (h0 : 0 ≤ messageId.toInt) (h53 : messageId.toInt ≤ 2^53)
    (hp : (Callback.controller (.onSendMessageResult messageId state)).post m = some t)
    (hn : received .controller later t = some n)
    (hp' : (Callback.channel (.onSendMessageResult messageId state')).post m' = some t')
    (hn' : received .channel later' t' = some n') :
    (carries n messageId.toInt ∧ carries n' messageId.toInt ↔ messageId.toInt < 2^31) ∧
    (n.2.head? = n'.2.head? ↔ messageId.toInt < 2^31) ∧
    carries n' messageId.toInt ∧
    ∀ (otherId : BitVec 64) (s : BitVec 32) (mem mem' : Memory) (u : Task) (o : Notice),
      0 ≤ otherId.toInt → otherId.toInt ≤ 2^53 →
      (Callback.controller (.onSendMessageResult otherId s)).post mem = some u →
      received .controller mem' u = some o →
      (n.2.head? = o.2.head? ↔ messageId.toInt % 2^32 = otherId.toInt % 2^32) := by
  have hcut := controllerState_carries hp hn
  have hexact : carries n' messageId.toInt := by
    have hchannel := channelState_carries hp' hn'
    rw [← toInt_of_nonneg messageId h0, doubleOfInt_exact _ h0 h53] at hchannel
    exact hchannel
  refine ⟨?_, ?_, hexact, ?_⟩
  · rw [← int32_exact messageId h0]
    constructor
    · exact fun h => carries_unique hcut h.1
    · exact fun h => ⟨h ▸ hcut, hexact⟩
  · rw [← int32_exact messageId h0, hcut, hexact]
    simp
  · intro otherId s mem mem' u o h0' _ hq ho
    rw [← int32_collide messageId otherId h0 h0', hcut, controllerState_carries hq ho]
    simp

def stateNotice (id : ℤ) : Notice :=
  ("SendMessageState", [.scalar (.number id), .scalar (.number 1)])

theorem message_id_delivered_7 :
    (carries (stateNotice 7) 7 ∧ carries (stateNotice 7) 7) ∧
    (stateNotice 7).2.head? = (stateNotice 7).2.head? := by
  have h := message_id_delivered 7 1 1 (fun _ => none) (fun _ => none) (fun _ => none)
    (fun _ => none) _ _ (stateNotice 7) (stateNotice 7) (by decide) (by decide) rfl rfl rfl rfl
  exact ⟨h.1.mpr (by decide), (h.2.2.2 4294967303 1 (fun _ => none) (fun _ => none) _
    (stateNotice 7) (by decide) (by decide) rfl rfl).mpr (by decide)⟩

/-- The controller's event brings the ids 1 and 2^32+1 as the same number, a
channel's does not. -/
theorem message_ids_shared :
    ((Callback.controller (.onSendMessageResult 4294967297 1)).post fun _ => none).bind
        (received .controller fun _ => none) = some (stateNotice 1) ∧
    ((Callback.controller (.onSendMessageResult 1 1)).post fun _ => none).bind
        (received .controller fun _ => none) = some (stateNotice 1) ∧
    ((Callback.channel (.onSendMessageResult 4294967297 1)).post fun _ => none).bind
        (received .channel fun _ => none) = some (stateNotice 4294967297) ∧
    ¬ carries (stateNotice 1) 4294967297 := by
  refine ⟨rfl, rfl, rfl, ?_⟩
  intro h
  have hsame := carries_unique h (y := 1) rfl
  revert hsame
  decide

end AgoraRtm.Identifiers
