import Mathlib.Data.List.Basic

/-!
# UTF-8 and UTF-16

The standard decoder, from bytes to UTF-16 code units: each maximal ill-formed
part is replaced by one U+FFFD, and the byte that ended it is read again as a
lead byte. The encoder, from code units to bytes, replaces each lone surrogate.
-/

set_option autoImplicit false

namespace Utf8

def replacement : UInt16 := 0xFFFD

structure Pending where
  missing : ℕ
  bits : ℕ
  lower : ℕ
  upper : ℕ
  deriving DecidableEq, Repr

def utf16 (cp : ℕ) : List UInt16 :=
  if cp < 0x10000 then [UInt16.ofNat cp]
  else [UInt16.ofNat (0xD800+(cp-0x10000)/0x400), UInt16.ofNat (0xDC00+(cp-0x10000)%0x400)]

def lead (b : ℕ) : List UInt16 × Option Pending :=
  if b < 0x80 then ([UInt16.ofNat b], none)
  else if 0xC2 ≤ b ∧ b ≤ 0xDF then ([], some ⟨1, b%0x20, 0x80, 0xBF⟩)
  else if 0xE0 ≤ b ∧ b ≤ 0xEF then
    ([], some ⟨2, b%0x10, if b = 0xE0 then 0xA0 else 0x80, if b = 0xED then 0x9F else 0xBF⟩)
  else if 0xF0 ≤ b ∧ b ≤ 0xF4 then
    ([], some ⟨3, b%0x8, if b = 0xF0 then 0x90 else 0x80, if b = 0xF4 then 0x8F else 0xBF⟩)
  else ([replacement], none)

def decodeFrom : Option Pending → List UInt8 → List UInt16
  | none, [] => []
  | some _, [] => [replacement]
  | none, b :: bs => (lead b.toNat).1 ++ decodeFrom (lead b.toNat).2 bs
  | some p, b :: bs =>
    if p.lower ≤ b.toNat ∧ b.toNat ≤ p.upper then
      if p.missing = 1 then utf16 (p.bits*0x40+b.toNat%0x40) ++ decodeFrom none bs
      else decodeFrom (some ⟨p.missing-1, p.bits*0x40+b.toNat%0x40, 0x80, 0xBF⟩) bs
    else replacement :: ((lead b.toNat).1 ++ decodeFrom (lead b.toNat).2 bs)

def decode (bytes : List UInt8) : List UInt16 := decodeFrom none bytes

-- U+20AC in three bytes, a truncated pair, and U+1F600 as a surrogate pair
example : decode [0xE2, 0x82, 0xAC, 0xC3, 0x41, 0xF0, 0x9F, 0x98, 0x80] =
    [0x20AC, 0xFFFD, 0x41, 0xD83D, 0xDE00] := by decide

def isLead (u : UInt16) : Bool := 0xD800 ≤ u && u ≤ 0xDBFF

def isTrail (u : UInt16) : Bool := 0xDC00 ≤ u && u ≤ 0xDFFF

def scalarValue (u : UInt16) : ℕ := if isLead u || isTrail u then replacement.toNat else u.toNat

/-- The code points of UTF-16 text, with U+FFFD for each lone surrogate. -/
def codePoints : List UInt16 → List ℕ
  | [] => []
  | [u] => [scalarValue u]
  | u :: v :: units =>
    if isLead u && isTrail v then
      (0x10000+(u.toNat-0xD800)*0x400+(v.toNat-0xDC00)) :: codePoints units
    else scalarValue u :: codePoints (v :: units)

def bytes (cp : ℕ) : List UInt8 :=
  if cp < 0x80 then [UInt8.ofNat cp]
  else if cp < 0x800 then [UInt8.ofNat (0xC0+cp/0x40), UInt8.ofNat (0x80+cp%0x40)]
  else if cp < 0x10000 then
    [UInt8.ofNat (0xE0+cp/0x1000), UInt8.ofNat (0x80+cp/0x40%0x40), UInt8.ofNat (0x80+cp%0x40)]
  else
    [UInt8.ofNat (0xF0+cp/0x40000), UInt8.ofNat (0x80+cp/0x1000%0x40),
      UInt8.ofNat (0x80+cp/0x40%0x40), UInt8.ofNat (0x80+cp%0x40)]

def encode (units : List UInt16) : List UInt8 := (codePoints units).flatMap bytes

/-- The bytes of the code points that fit whole into a capacity. -/
def fit : ℕ → List ℕ → List UInt8
  | _, [] => []
  | capacity, cp :: cps =>
    if (bytes cp).length ≤ capacity then bytes cp ++ fit (capacity-(bytes cp).length) cps else []

theorem bytes_ne_nil (cp : ℕ) : bytes cp ≠ [] := by
  unfold bytes
  split
  · simp
  · split
    · simp
    · split <;> simp

@[simp] theorem encode_eq_nil (units : List UInt16) : encode units = [] ↔ units = [] := by
  constructor
  · intro h
    match units with
    | [] => rfl
    | [u] => simp [encode, codePoints, bytes_ne_nil] at h
    | u :: v :: units =>
      simp only [encode, codePoints] at h
      split at h <;> simp [bytes_ne_nil] at h
  · rintro rfl
    rfl

theorem fit_flatMap (cps : List ℕ) (capacity : ℕ) (h : (cps.flatMap bytes).length ≤ capacity) :
    fit capacity cps = cps.flatMap bytes := by
  induction cps generalizing capacity with
  | nil => rfl
  | cons cp cps ih =>
    simp only [List.flatMap_cons, List.length_append] at h ⊢
    rw [fit, if_pos (by omega), ih _ (by omega)]

-- U+20AC, a lone lead surrogate, and U+1F600
example : encode [0x20AC, 0xD83D, 0x41, 0xD83D, 0xDE00] =
    [0xE2, 0x82, 0xAC, 0xEF, 0xBF, 0xBD, 0x41, 0xF0, 0x9F, 0x98, 0x80] := by decide

end Utf8
