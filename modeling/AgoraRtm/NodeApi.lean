import AgoraRtm.Utf8
import Mathlib.Data.List.Infix

/-!
# Values from JavaScript

The getters of the node API that the entry points call. A `char*` is the
allocation it points to the start of, or null. A getter that would write
outside the allocation has no result.
-/

set_option autoImplicit false

namespace AgoraRtm.NodeApi

/-- What the getters tell apart. An `int32` is a number that `IsInt32` accepts,
a `number` any other; an array is a reference into the engine's heap. -/
inductive Value where
  | undefined
  | null
  | boolean (b : Bool)
  | int32 (n : BitVec 32)
  | number
  | string (units : List UInt16)
  | function
  | array (ref : ℕ)
  | object
  deriving DecidableEq, Repr

inductive napi_status where
  | napi_ok
  | napi_invalid_arg
  | napi_generic_failure
  deriving DecidableEq, Repr

abbrev Block := List UInt8

abbrev CharPtr := Option Block

def overwrite (block : Block) (bytes : List UInt8) : Option Block :=
  if bytes.length ≤ block.length then some (bytes ++ block.drop bytes.length) else none

def store (block : Block) (offset : ℕ) (b : UInt8) : Option Block :=
  if offset < block.length then some (block.set offset b) else none

def Utf8Length (units : List UInt16) : ℕ := (Utf8.encode units).length

/-- V8's writer: whole code points within the capacity, no terminator. -/
def WriteUtf8 (units : List UInt16) (buffer : Block) (capacity : ℕ) : Option (ℕ × Block) :=
  let bytes := Utf8.fit capacity (Utf8.codePoints units)
  (overwrite buffer bytes).map fun written => (bytes.length, written)

def napi_get_value_string_utf8_ (str : Value) (buffer : CharPtr) (len : ℕ) :
    Option (ℕ × CharPtr) :=
  match str with
  | .string units =>
    match buffer with
    | none => some (Utf8Length units, none)
    | some block => do
      let (copied, written) ← WriteUtf8 units block (len-1)
      let terminated ← store written copied 0
      return (copied, some terminated)
  | _ => some (0, buffer)

def napi_get_value_int32_ (value : Value) (result : BitVec 32) : napi_status × BitVec 32 :=
  match value with
  | .int32 n => (.napi_ok, n)
  | _ => (.napi_invalid_arg, result)

def alloc_buf (calloc : Bool) (length : ℕ) : CharPtr :=
  if calloc then some (List.replicate length 0) else none

/-- The status and what the `NodeString` then points to. The length is 0 for
what is no string and for the empty string alike. -/
def napi_get_value_nodestring_ (calloc : Bool) (str : Value) (nodechar : CharPtr) :
    Option (napi_status × CharPtr) := do
  let (len, _) ← napi_get_value_string_utf8_ str none 0
  if len = 0 then return (.napi_ok, nodechar)
  else
    match alloc_buf calloc (len+1) with
    | none => return (.napi_generic_failure, nodechar)
    | some outstr => do
      let (_, outstr) ← napi_get_value_string_utf8_ str (some outstr) (len+1)
      return (.napi_ok, outstr)

def Value.text : Value → Option (List UInt8)
  | .string units => some (Utf8.encode units)
  | _ => none

/-- The caller's string in a fresh `NodeString`: null unless there is text. -/
def extracted (calloc : Bool) (str : Value) : CharPtr :=
  match str.text with
  | some (b :: bytes) => if calloc then some (b :: bytes ++ [0]) else none
  | _ => none

theorem utf8_written (units : List UInt16) (len : ℕ) (h : len = Utf8Length units) :
    napi_get_value_string_utf8_ (.string units) (some (List.replicate (len+1) 0)) (len+1) =
      some (len, some (Utf8.encode units ++ [0])) := by
  have hfit : Utf8.fit len (Utf8.codePoints units) = Utf8.encode units :=
    Utf8.fit_flatMap _ _ (Nat.le_of_eq h.symm)
  have hlen : (Utf8.encode units).length = len := h.symm
  have hrest : (List.replicate (len+1) (0 : UInt8)).drop len = [0] := by
    simp [List.drop_replicate]
  simp [napi_get_value_string_utf8_, WriteUtf8, hfit, overwrite, hlen, hrest, store]

theorem nodestring_text (calloc : Bool) (units : List UInt16) (h : units ≠ [])
    (nodechar : CharPtr) :
    napi_get_value_nodestring_ calloc (.string units) nodechar =
      if calloc then some (.napi_ok, some (Utf8.encode units ++ [0]))
      else some (.napi_generic_failure, nodechar) := by
  have hlen : Utf8Length units ≠ 0 := by simpa [Utf8Length] using h
  cases calloc with
  | false => simp [napi_get_value_nodestring_, napi_get_value_string_utf8_, hlen, alloc_buf]
  | true =>
    have hwrite := utf8_written units _ rfl
    rw [napi_get_value_nodestring_]
    simp [napi_get_value_string_utf8_, hlen, alloc_buf] at hwrite ⊢
    simp [hwrite]

theorem nodestring_textless (calloc : Bool) (str : Value) (nodechar : CharPtr)
    (h : ∀ units, str = .string units → units = []) :
    napi_get_value_nodestring_ calloc str nodechar = some (.napi_ok, nodechar) := by
  cases str with
  | string units =>
    obtain rfl := h units rfl
    rfl
  | _ => rfl

theorem nodestring_fresh (calloc : Bool) (str : Value) :
    ∃ status, napi_get_value_nodestring_ calloc str none = some (status, extracted calloc str) := by
  by_cases h : ∀ units, str = .string units → units = []
  · refine ⟨.napi_ok, ?_⟩
    rw [nodestring_textless calloc str none h]
    cases str with
    | string units =>
      obtain rfl := h units rfl
      rfl
    | _ => rfl
  · obtain ⟨units, rfl, hne⟩ : ∃ units, str = .string units ∧ units ≠ [] := by simpa using h
    have hcons : Utf8.encode units ≠ [] := by simpa using hne
    obtain ⟨b, bytes, hb⟩ := List.exists_cons_of_ne_nil hcons
    rw [nodestring_text calloc units hne]
    cases calloc <;> simp [extracted, Value.text, hb]

theorem extracted_some (calloc : Bool) (str : Value) (block : Block) :
    extracted calloc str = some block ↔
      calloc = true ∧ ∃ units, str = .string units ∧ units ≠ [] ∧
        block = Utf8.encode units ++ [0] := by
  cases str with
  | string units =>
    cases hb : Utf8.encode units with
    | nil =>
      obtain rfl : units = [] := by simpa using hb
      simp [extracted, Value.text, hb]
    | cons b bytes =>
      have hne : units ≠ [] := by
        rintro rfl
        cases hb
      cases calloc <;> simp [extracted, Value.text, hb, hne, eq_comm]
  | _ => simp [extracted, Value.text]

end AgoraRtm.NodeApi
