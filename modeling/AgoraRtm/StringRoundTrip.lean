import AgoraRtm.NodeApi
import AgoraRtm.NativeEvents
import AgoraRtm.Transcoding
import Mathlib.Data.List.TakeWhile

/-!
# A string through both converters

`napi_get_value_nodestring_` takes the length from a first call without a buffer
and gives the second call one byte more, of which that call leaves the last to
the terminator; `napi_create_string_` reads the result up to its terminator.
-/

set_option autoImplicit false

namespace AgoraRtm.NodeApi

/-- `napi_create_string_` of a `char*`, null counting as the empty string. There
is no result where the buffer holds no terminator. -/
def napi_create_string_ (value : CharPtr) : Option NativeEvents.Scalar :=
  match value with
  | none => some (NativeEvents.napi_create_string_ [])
  | some block =>
    if 0 ∈ block then some (NativeEvents.napi_create_string_ (block.takeWhile (· ≠ 0))) else none

/-- What comes back from the converters: the text up to its first U+0000, with
U+FFFD for each lone surrogate. -/
def returned (units : List UInt16) : List UInt16 := Utf8.toWellFormed (units.takeWhile (· ≠ 0))

theorem create_text (units : List UInt16) :
    napi_create_string_ (some (Utf8.encode units ++ [0])) = some (.string (returned units)) := by
  rw [napi_create_string_, if_pos (by simp), NativeEvents.napi_create_string_, Utf8.cut_encode,
    Utf8.decode_encode, returned]

theorem returned_eq_iff (units : List UInt16) :
    returned units = units ↔ 0 ∉ units ∧ Utf8.isWellFormed units = true := by
  have hcut : units.takeWhile (· ≠ 0) = units ↔ 0 ∉ units := by
    rw [List.takeWhile_eq_self_iff]
    constructor
    · intro hall h0
      simpa using hall 0 h0
    · intro hnul u hu
      exact decide_eq_true fun h0 => hnul (h0 ▸ hu)
  constructor
  · intro hsame
    -- replacing keeps the length, so nothing can have been cut off
    have hlength : (units.takeWhile (· ≠ 0)).length = units.length := by
      rw [← Utf8.length_toWellFormed, ← returned, hsame]
    have hwhole := (List.takeWhile_prefix (l := units) (· ≠ 0)).eq_of_length hlength
    refine ⟨hcut.mp hwhole, ?_⟩
    rw [returned, hwhole] at hsame
    exact (Utf8.toWellFormed_eq_iff units).mp hsame
  · rintro ⟨hnul, hwell⟩
    rw [returned, hcut.mpr hnul, (Utf8.toWellFormed_eq_iff units).mpr hwell]

/-- The round trip of a string. The first converter always has a result, so it
writes only inside the buffer, and reports success but where there is no memory
for the buffer. Then the buffer holds all the bytes and a terminator, whatever
the `NodeString` held before, and the second converter gives the string up to its
first U+0000 with each lone surrogate replaced: the string itself, if it is well
formed and has no U+0000. -/
theorem string_round_trip (calloc : Bool) (units : List UInt16) :
    ∃ status p, napi_get_value_nodestring_ calloc (.string units) none = some (status, p) ∧
      (status = .napi_ok ↔ units = [] ∨ calloc = true) ∧
      (status = .napi_ok →
        (units ≠ [] → p = some (Utf8.encode units ++ [0]) ∧
          ∀ nodechar, napi_get_value_nodestring_ calloc (.string units) nodechar =
            some (status, p)) ∧
        napi_create_string_ p =
          some (.string (Utf8.toWellFormed (units.takeWhile (· ≠ 0)))) ∧
        (0 ∉ units → Utf8.isWellFormed units = true →
          napi_create_string_ p = some (.string units))) := by
  by_cases hne : units = []
  · subst hne
    refine ⟨.napi_ok, none, rfl, by simp, ?_⟩
    intro _
    exact ⟨fun h => absurd rfl h, rfl, fun _ _ => rfl⟩
  · cases calloc with
    | false =>
      refine ⟨.napi_generic_failure, none, ?_, by simp [hne], by simp⟩
      simpa using nodestring_text false units hne none
    | true =>
      have htext : ∀ nodechar, napi_get_value_nodestring_ true (.string units) nodechar =
          some (.napi_ok, some (Utf8.encode units ++ [0])) := by
        intro nodechar
        simpa using nodestring_text true units hne nodechar
      refine ⟨.napi_ok, some (Utf8.encode units ++ [0]), htext none, by simp, ?_⟩
      intro _
      refine ⟨fun _ => ⟨rfl, htext⟩, create_text units, ?_⟩
      intro hnul hwell
      rw [create_text, (returned_eq_iff units).mpr ⟨hnul, hwell⟩]

-- U+20AC, a lone lead surrogate and U+1F600, and what stands after a U+0000
example : returned [0x20AC, 0xD83D, 0x41, 0xD83D, 0xDE00, 0, 0x42] =
    [0x20AC, 0xFFFD, 0x41, 0xD83D, 0xDE00] := by decide

end AgoraRtm.NodeApi
