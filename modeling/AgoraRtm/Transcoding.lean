import AgoraRtm.Utf8

/-!
# Decoding what was encoded

The decoder undoes the encoder on the code points of UTF-16 text, so that text
comes back with U+FFFD for each lone surrogate, and well-formed text unchanged.
No byte of a code point other than 0 is 0, so that cutting the bytes at their
first 0 is cutting the text there.
-/

set_option autoImplicit false

namespace Utf8

def Scalar (cp : ℕ) : Prop := cp < 0xD800 ∨ 0xE000 ≤ cp ∧ cp < 0x110000

def isSurrogate (u : UInt16) : Bool := isLead u || isTrail u

def toWellFormed : List UInt16 → List UInt16
  | [] => []
  | [u] => [if isSurrogate u then replacement else u]
  | u :: v :: units =>
    if isLead u && isTrail v then u :: v :: toWellFormed units
    else (if isSurrogate u then replacement else u) :: toWellFormed (v :: units)

def isWellFormed : List UInt16 → Bool
  | [] => true
  | [u] => !isSurrogate u
  | u :: v :: units =>
    if isLead u && isTrail v then isWellFormed units
    else !isSurrogate u && isWellFormed (v :: units)

theorem toWellFormed_eq_iff (units : List UInt16) :
    toWellFormed units = units ↔ isWellFormed units = true := by
  have hunit : ∀ u, (if isSurrogate u then replacement else u) = u ↔ isSurrogate u = false := by
    intro u
    by_cases hs : isSurrogate u = true
    · rw [if_pos hs]
      constructor
      · rintro rfl
        exact absurd hs (by decide)
      · intro hf
        rw [hs] at hf
        cases hf
    · rw [if_neg hs]
      exact ⟨fun _ => by simpa using hs, fun _ => rfl⟩
  induction units using isWellFormed.induct with
  | case1 => exact ⟨fun _ => rfl, fun _ => rfl⟩
  | case2 u => rw [toWellFormed, isWellFormed, List.cons.injEq, hunit u]; simp
  | case3 u v units hpair ih =>
    rw [toWellFormed, if_pos hpair, isWellFormed, if_pos hpair]
    simpa using ih
  | case4 u v units hpair ih =>
    rw [toWellFormed, if_neg hpair, isWellFormed, if_neg hpair, List.cons.injEq, hunit u]
    simpa using fun _ => ih

theorem length_toWellFormed (units : List UInt16) :
    (toWellFormed units).length = units.length := by
  induction units using toWellFormed.induct with
  | case1 => rfl
  | case2 u => rfl
  | case3 u v units hpair ih => rw [toWellFormed, if_pos hpair]; simp [ih]
  | case4 u v units hpair ih => rw [toWellFormed, if_neg hpair, List.length_cons, ih]; rfl

theorem toNat_byte {n : ℕ} (h : n < 0x100) : (UInt8.ofNat n).toNat = n := by
  simp [Nat.mod_eq_of_lt h]

section Decoding

variable (rest : List UInt8)

theorem decode_lead {b : ℕ} (h : b < 0x100) :
    decodeFrom none (UInt8.ofNat b :: rest) = (lead b).1 ++ decodeFrom (lead b).2 rest := by
  rw [decodeFrom, toNat_byte h]

theorem decode_trail {missing bits lower upper k : ℕ} (hk : k < 0x40) (hlower : lower ≤ 0x80+k)
    (hupper : 0x80+k ≤ upper) :
    decodeFrom (some ⟨missing, bits, lower, upper⟩) (UInt8.ofNat (0x80+k) :: rest) =
      if missing = 1 then utf16 (bits*0x40+k) ++ decodeFrom none rest
      else decodeFrom (some ⟨missing-1, bits*0x40+k, 0x80, 0xBF⟩) rest := by
  have hbyte : (UInt8.ofNat (0x80+k)).toNat = 0x80+k := toNat_byte (by omega)
  rw [decodeFrom, hbyte, if_pos ⟨hlower, hupper⟩, show (0x80+k)%0x40 = k by omega]

theorem decode_one {cp : ℕ} (h : cp < 0x80) :
    decodeFrom none (bytes cp ++ rest) = utf16 cp ++ decodeFrom none rest := by
  rw [bytes, if_pos h, List.singleton_append, decode_lead rest (by omega), lead, if_pos h, utf16,
    if_pos (by omega)]

theorem decode_two {cp : ℕ} (h1 : 0x80 ≤ cp) (h2 : cp < 0x800) :
    decodeFrom none (bytes cp ++ rest) = utf16 cp ++ decodeFrom none rest := by
  have hlead : lead (0xC0+cp/0x40) = ([], some ⟨1, cp/0x40, 0x80, 0xBF⟩) := by
    rw [lead, if_neg (by omega), if_pos (by omega), show (0xC0+cp/0x40)%0x20 = cp/0x40 by omega]
  rw [bytes, if_neg (by omega), if_pos h2, List.cons_append, List.singleton_append,
    decode_lead _ (by omega), hlead, List.nil_append,
    decode_trail rest (by omega) (by omega) (by omega), if_pos rfl,
    show cp/0x40*0x40+cp%0x40 = cp by omega]

theorem decode_three {cp : ℕ} (hs : Scalar cp) (h1 : 0x800 ≤ cp) (h2 : cp < 0x10000) :
    decodeFrom none (bytes cp ++ rest) = utf16 cp ++ decodeFrom none rest := by
  have hlead : lead (0xE0+cp/0x1000) = ([], some ⟨2, cp/0x1000,
      if 0xE0+cp/0x1000 = 0xE0 then 0xA0 else 0x80,
      if 0xE0+cp/0x1000 = 0xED then 0x9F else 0xBF⟩) := by
    rw [lead, if_neg (by omega), if_neg (by omega), if_pos (by omega),
      show (0xE0+cp/0x1000)%0x10 = cp/0x1000 by omega]
  -- the two lead bytes that narrow the range exclude short forms and surrogates
  have hlower : (if 0xE0+cp/0x1000 = 0xE0 then 0xA0 else 0x80) ≤ 0x80+cp/0x40%0x40 := by
    split <;> omega
  have hupper : 0x80+cp/0x40%0x40 ≤ (if 0xE0+cp/0x1000 = 0xED then 0x9F else 0xBF) := by
    unfold Scalar at hs
    split <;> omega
  rw [bytes, if_neg (by omega), if_neg (by omega), if_pos h2, List.cons_append, List.cons_append,
    List.singleton_append, decode_lead _ (by omega), hlead, List.nil_append,
    decode_trail _ (by omega) hlower hupper, if_neg (by omega),
    decode_trail _ (by omega) (by omega) (by omega), if_pos rfl,
    show (cp/0x1000*0x40+cp/0x40%0x40)*0x40+cp%0x40 = cp by omega]

theorem decode_four {cp : ℕ} (hs : Scalar cp) (h : 0x10000 ≤ cp) :
    decodeFrom none (bytes cp ++ rest) = utf16 cp ++ decodeFrom none rest := by
  have hmax : cp < 0x110000 := by
    unfold Scalar at hs
    omega
  have hlead : lead (0xF0+cp/0x40000) = ([], some ⟨3, cp/0x40000,
      if 0xF0+cp/0x40000 = 0xF0 then 0x90 else 0x80,
      if 0xF0+cp/0x40000 = 0xF4 then 0x8F else 0xBF⟩) := by
    rw [lead, if_neg (by omega), if_neg (by omega), if_neg (by omega), if_pos (by omega),
      show (0xF0+cp/0x40000)%0x8 = cp/0x40000 by omega]
  have hlower : (if 0xF0+cp/0x40000 = 0xF0 then 0x90 else 0x80) ≤ 0x80+cp/0x1000%0x40 := by
    split <;> omega
  have hupper : 0x80+cp/0x1000%0x40 ≤ (if 0xF0+cp/0x40000 = 0xF4 then 0x8F else 0xBF) := by
    split <;> omega
  rw [bytes, if_neg (by omega), if_neg (by omega), if_neg (by omega), List.cons_append,
    List.cons_append, List.cons_append, List.singleton_append, decode_lead _ (by omega), hlead,
    List.nil_append, decode_trail _ (by omega) hlower hupper, if_neg (by omega),
    decode_trail _ (by omega) (by omega) (by omega), if_neg (by omega),
    decode_trail _ (by omega) (by omega) (by omega), if_pos rfl,
    show ((cp/0x40000*0x40+cp/0x1000%0x40)*0x40+cp/0x40%0x40)*0x40+cp%0x40 = cp by omega]

theorem decode_bytes {cp : ℕ} (hs : Scalar cp) :
    decodeFrom none (bytes cp ++ rest) = utf16 cp ++ decodeFrom none rest := by
  by_cases h1 : cp < 0x80
  · exact decode_one rest h1
  · by_cases h2 : cp < 0x800
    · exact decode_two rest (by omega) h2
    · by_cases h3 : cp < 0x10000
      · exact decode_three rest hs (by omega) h3
      · exact decode_four rest hs (by omega)

end Decoding

theorem decode_flatMap (cps : List ℕ) (h : ∀ cp ∈ cps, Scalar cp) :
    decode (cps.flatMap bytes) = cps.flatMap utf16 := by
  induction cps with
  | nil => rfl
  | cons cp cps ih =>
    rw [List.flatMap_cons, List.flatMap_cons, decode, decode_bytes _ (h cp (List.mem_cons_self ..)),
      ← ih fun other hother => h other (List.mem_cons_of_mem _ hother)]
    rfl

section CodePoints

variable (u v : UInt16)

theorem isLead_iff : isLead u = true ↔ 0xD800 ≤ u.toNat ∧ u.toNat ≤ 0xDBFF := by
  rw [isLead, Bool.and_eq_true, decide_eq_true_eq, decide_eq_true_eq]
  exact Iff.rfl

theorem isTrail_iff : isTrail u = true ↔ 0xDC00 ≤ u.toNat ∧ u.toNat ≤ 0xDFFF := by
  rw [isTrail, Bool.and_eq_true, decide_eq_true_eq, decide_eq_true_eq]
  exact Iff.rfl

theorem isSurrogate_iff : isSurrogate u = true ↔ 0xD800 ≤ u.toNat ∧ u.toNat ≤ 0xDFFF := by
  rw [isSurrogate, Bool.or_eq_true, isLead_iff, isTrail_iff]
  omega

theorem scalarValue_eq :
    scalarValue u = if isSurrogate u then replacement.toNat else u.toNat := rfl

theorem scalarValue_scalar : Scalar (scalarValue u) := by
  have hmax : u.toNat < 0x10000 := u.toNat_lt
  by_cases hu : isSurrogate u = true
  · rw [scalarValue_eq, if_pos hu]
    exact Or.inr (by decide)
  · rw [scalarValue_eq, if_neg hu]
    rw [isSurrogate_iff] at hu
    unfold Scalar
    omega

theorem utf16_scalarValue :
    utf16 (scalarValue u) = [if isSurrogate u then replacement else u] := by
  have hmax : u.toNat < 0x10000 := u.toNat_lt
  by_cases hu : isSurrogate u = true
  · rw [scalarValue_eq, if_pos hu, if_pos hu]
    rfl
  · rw [scalarValue_eq, if_neg hu, if_neg hu, utf16, if_pos hmax, UInt16.ofNat_toNat]

theorem pair_scalar (hu : isLead u = true) (hv : isTrail v = true) :
    Scalar (0x10000+(u.toNat-0xD800)*0x400+(v.toNat-0xDC00)) ∧
      utf16 (0x10000+(u.toNat-0xD800)*0x400+(v.toNat-0xDC00)) = [u, v] := by
  rw [isLead_iff] at hu
  rw [isTrail_iff] at hv
  have hhigh : 0xD800+(0x10000+(u.toNat-0xD800)*0x400+(v.toNat-0xDC00)-0x10000)/0x400 =
      u.toNat := by omega
  have hlow : 0xDC00+(0x10000+(u.toNat-0xD800)*0x400+(v.toNat-0xDC00)-0x10000)%0x400 =
      v.toNat := by omega
  constructor
  · exact Or.inr (by omega)
  · rw [utf16, if_neg (by omega), hhigh, hlow, UInt16.ofNat_toNat, UInt16.ofNat_toNat]

end CodePoints

theorem codePoints_scalar (units : List UInt16) : ∀ cp ∈ codePoints units, Scalar cp := by
  induction units using codePoints.induct with
  | case1 => simp [codePoints]
  | case2 u => simp [codePoints, scalarValue_scalar]
  | case3 u v units hpair ih =>
    obtain ⟨hu, hv⟩ := Bool.and_eq_true_iff.mp hpair
    rw [codePoints, if_pos hpair]
    exact List.forall_mem_cons.mpr ⟨(pair_scalar u v hu hv).1, ih⟩
  | case4 u v units hpair ih =>
    rw [codePoints, if_neg hpair]
    exact List.forall_mem_cons.mpr ⟨scalarValue_scalar u, ih⟩

theorem utf16_codePoints (units : List UInt16) :
    (codePoints units).flatMap utf16 = toWellFormed units := by
  induction units using codePoints.induct with
  | case1 => rfl
  | case2 u => simp [codePoints, toWellFormed, utf16_scalarValue]
  | case3 u v units hpair ih =>
    obtain ⟨hu, hv⟩ := Bool.and_eq_true_iff.mp hpair
    rw [codePoints, if_pos hpair, toWellFormed, if_pos hpair, List.flatMap_cons,
      (pair_scalar u v hu hv).2, ih]
    rfl
  | case4 u v units hpair ih =>
    rw [codePoints, if_neg hpair, toWellFormed, if_neg hpair, List.flatMap_cons,
      utf16_scalarValue, ih]
    rfl

/-- Decoding undoes encoding but for lone surrogates. -/
theorem decode_encode (units : List UInt16) : decode (encode units) = toWellFormed units := by
  rw [encode, decode_flatMap _ (codePoints_scalar units), utf16_codePoints]

section Terminator

theorem byte_ne_zero {n : ℕ} (h : n < 0x100) (h0 : n ≠ 0) : UInt8.ofNat n ≠ 0 := by
  intro hz
  have hval := congrArg UInt8.toNat hz
  rw [toNat_byte h] at hval
  exact h0 hval

theorem bytes_ne_zero {cp : ℕ} (hs : Scalar cp) (h : cp ≠ 0) : ∀ b ∈ bytes cp, b ≠ 0 := by
  have hmax : cp < 0x110000 := by
    unfold Scalar at hs
    omega
  unfold bytes
  split
  · simpa using byte_ne_zero (by omega) h
  · split
    · simp only [List.forall_mem_cons]
      exact ⟨byte_ne_zero (by omega) (by omega), byte_ne_zero (by omega) (by omega), by simp⟩
    · split
      · simp only [List.forall_mem_cons]
        exact ⟨byte_ne_zero (by omega) (by omega), byte_ne_zero (by omega) (by omega),
          byte_ne_zero (by omega) (by omega), by simp⟩
      · simp only [List.forall_mem_cons]
        exact ⟨byte_ne_zero (by omega) (by omega), byte_ne_zero (by omega) (by omega),
          byte_ne_zero (by omega) (by omega), byte_ne_zero (by omega) (by omega), by simp⟩

theorem cut_bytes (cps : List ℕ) (h : ∀ cp ∈ cps, Scalar cp) :
    (cps.flatMap bytes ++ [0]).takeWhile (· ≠ 0) = (cps.takeWhile (· ≠ 0)).flatMap bytes := by
  induction cps with
  | nil => rfl
  | cons cp cps ih =>
    obtain ⟨hcp, hcps⟩ := List.forall_mem_cons.mp h
    by_cases h0 : cp = 0
    · subst h0
      rfl
    · have hbytes : ∀ b ∈ bytes cp, decide (b ≠ 0) = true :=
        fun b hb => decide_eq_true (bytes_ne_zero hcp h0 b hb)
      rw [List.flatMap_cons, List.append_assoc, List.takeWhile_append_of_pos hbytes, ih hcps,
        List.takeWhile_cons_of_pos (by simpa using h0), List.flatMap_cons]

theorem scalarValue_zero (u : UInt16) : scalarValue u = 0 ↔ u = 0 := by
  constructor
  · intro h
    by_cases hu : isSurrogate u = true
    · rw [scalarValue_eq, if_pos hu] at h
      cases h
    · rw [scalarValue_eq, if_neg hu] at h
      exact UInt16.toNat_inj.mp h
  · rintro rfl
    rfl

theorem cut_codePoints (units : List UInt16) :
    (codePoints units).takeWhile (· ≠ 0) = codePoints (units.takeWhile (· ≠ 0)) := by
  induction units using codePoints.induct with
  | case1 => rfl
  | case2 u =>
    by_cases h0 : u = 0
    · subst h0
      rfl
    · simp [codePoints, scalarValue_zero, h0]
  | case3 u v units hpair ih =>
    obtain ⟨hu, hv⟩ := Bool.and_eq_true_iff.mp hpair
    have hu0 : u ≠ 0 := by
      rintro rfl
      cases hu
    have hv0 : v ≠ 0 := by
      rintro rfl
      cases hv
    rw [codePoints, if_pos hpair, List.takeWhile_cons_of_pos (by simp), ih,
      List.takeWhile_cons_of_pos (by simpa using hu0),
      List.takeWhile_cons_of_pos (by simpa using hv0), codePoints, if_pos hpair]
  | case4 u v units hpair ih =>
    by_cases hu0 : u = 0
    · subst hu0
      rw [codePoints, if_neg hpair]
      rfl
    · have hfirst : (u :: v :: units).takeWhile (· ≠ 0) = u :: (v :: units).takeWhile (· ≠ 0) :=
        List.takeWhile_cons_of_pos (by simpa using hu0)
      rw [codePoints, if_neg hpair,
        List.takeWhile_cons_of_pos (by simpa [scalarValue_zero] using hu0), ih, hfirst]
      by_cases hv0 : v = 0
      · subst hv0
        rfl
      · rw [List.takeWhile_cons_of_pos (by simpa using hv0), codePoints, if_neg hpair]

/-- The text up to its first U+0000 is the C string of its bytes. -/
theorem cut_encode (units : List UInt16) :
    (encode units ++ [0]).takeWhile (· ≠ 0) = encode (units.takeWhile (· ≠ 0)) := by
  rw [encode, cut_bytes _ (codePoints_scalar units), cut_codePoints]
  rfl

end Terminator

end Utf8
