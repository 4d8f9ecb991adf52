import Mathlib.Algebra.BigOperators.Fin
import Mathlib.Data.Int.ModEq
import Mathlib.Tactic.Ring
import Chaining.Hash.Times33

/-!
# The times-33 hash as a polynomial

The loop shifts the hash, drops what leaves the 32 bits on the left, widens a byte with its
sign and wraps in both of its sums. Modulo 2^32 none of this shows: the hash of a text is the
value at 33 of a polynomial whose leading coefficient is the seed and whose others are the
signed bytes, the last byte the constant term (`ofText_eq_polynomial`).

A byte more multiplies by 33 and adds the signed byte (`step_modEq`), which is how Horner's
scheme evaluates that polynomial (`polynomial_cons`). So the loop evaluates it from any hash on
(`foldl_step_modEq`).

The sums are meant to wrap, and the shift is meant to drop bits. All that overflow checks look
at is the amount of the shift: `ofText?` is the loop with that check, and is never broken off.
-/

namespace Chaining.Times33

/-! ## The polynomial -/

/-- A byte read as a signed eight-bit integer. -/
def signed (b : UInt8) : ℤ :=
  if b.toNat < 128 then b.toNat else b.toNat - 256

/-- The polynomial with the coefficients `start` and then the signed bytes, evaluated at 33:
each byte behind a coefficient multiplies it by 33. -/
def polynomial (start : ℤ) (bytes : List UInt8) : ℤ :=
  start * 33 ^ bytes.length +
    ∑ i : Fin bytes.length, signed bytes[i] * 33 ^ (bytes.length - (i + 1))

theorem polynomial_nil (start : ℤ) : polynomial start [] = start := by
  simp [polynomial]

/-- Horner's scheme: the first byte is taken into the leading coefficient. -/
theorem polynomial_cons (start : ℤ) (b : UInt8) (bytes : List UInt8) :
    polynomial start (b :: bytes) = polynomial (start * 33 + signed b) bytes := by
  calc polynomial start (b :: bytes)
      = start * 33 ^ (bytes.length + 1) + ∑ i : Fin (bytes.length + 1),
          signed (b :: bytes)[i] * 33 ^ (bytes.length + 1 - (i + 1)) := rfl
    _ = start * 33 ^ (bytes.length + 1) + (signed b * 33 ^ bytes.length +
          ∑ i : Fin bytes.length, signed bytes[i] * 33 ^ (bytes.length - (i + 1))) := by
        rw [Fin.sum_univ_succ]
        simp
    _ = polynomial (start * 33 + signed b) bytes := by
        unfold polynomial
        ring

theorem polynomial_modEq {start start' n : ℤ} (h : start ≡ start' [ZMOD n])
    (bytes : List UInt8) : polynomial start bytes ≡ polynomial start' bytes [ZMOD n] :=
  (h.mul_right _).add_right _

/-! ## One byte -/

theorem toInt_toInt8 (b : UInt8) : b.toInt8.toInt = signed b := by
  show b.toBitVec.toInt = signed b
  rw [BitVec.toInt_eq_toNat_cond]
  show (if 2 * b.toNat < 2 ^ 8 then (b.toNat : ℤ) else b.toNat - (2 ^ 8 : ℕ)) = signed b
  unfold signed
  split <;> split <;> omega

/-- The word that is added for a byte is the signed byte, modulo 2^32. -/
theorem widened_modEq (b : UInt8) :
    (b.toInt8.toInt32.toUInt32.toNat : ℤ) ≡ signed b [ZMOD 2 ^ 32] := by
  have hint : b.toInt8.toInt32.toInt = signed b := by
    rw [Int8.toInt_toInt32, toInt_toInt8]
  have hbmod : b.toInt8.toInt32.toInt = (b.toInt8.toInt32.toUInt32.toNat : ℤ).bmod (2 ^ 32) :=
    BitVec.toInt_eq_toNat_bmod _
  rw [← hint, hbmod]
  exact Int.bmod_emod.symm

theorem step_modEq (h : UInt32) (b : UInt8) :
    ((step h b).toNat : ℤ) ≡ h.toNat * 33 + signed b [ZMOD 2 ^ 32] := by
  have hshift : (h <<< 5).toNat = h.toNat * 32 % 2 ^ 32 := by
    rw [UInt32.toNat_shiftLeft, Nat.shiftLeft_eq]
    rfl
  have hstep : (step h b).toNat =
      (h.toNat * 33 + b.toInt8.toInt32.toUInt32.toNat) % 2 ^ 32 := by
    unfold step
    rw [UInt32.toNat_add, UInt32.toNat_add, hshift]
    omega
  calc ((step h b).toNat : ℤ)
      = (h.toNat * 33 + b.toInt8.toInt32.toUInt32.toNat) % 2 ^ 32 := by
        rw [hstep]
        push_cast
        rfl
    _ ≡ h.toNat * 33 + b.toInt8.toInt32.toUInt32.toNat [ZMOD 2 ^ 32] := Int.mod_modEq _ _
    _ ≡ h.toNat * 33 + signed b [ZMOD 2 ^ 32] := (widened_modEq b).add_left _

/-! ## The loop -/

/-- From any hash on, the loop evaluates the polynomial that begins with it. -/
theorem foldl_step_modEq (h : UInt32) (bytes : List UInt8) :
    ((bytes.foldl step h).toNat : ℤ) ≡ polynomial h.toNat bytes [ZMOD 2 ^ 32] := by
  -- the hash stays open: each byte makes it the leading coefficient for those that follow
  induction bytes generalizing h with
  | nil =>
    rw [List.foldl_nil, polynomial_nil]
  | cons b bytes ih =>
    rw [List.foldl_cons, polynomial_cons]
    exact (ih (step h b)).trans (polynomial_modEq (step_modEq h b) bytes)

/-! ## Under overflow checks -/

/-- A shift to the left that is broken off if its amount is not below the width. -/
def shiftLeft? (h amount : UInt32) : Option UInt32 :=
  if amount < 32 then some (h <<< amount) else none

/-- One byte more, under overflow checks. -/
def step? (h : UInt32) (b : UInt8) : Option UInt32 := do
  let shifted ← shiftLeft? h 5
  return shifted + h + b.toInt8.toInt32.toUInt32

/-- The hash of a text, under overflow checks. -/
def ofText? (s : String) : Option UInt64 := do
  let h ← (textBytes s).foldlM step? seed
  return h.toUInt64

theorem step?_eq (h : UInt32) (b : UInt8) : step? h b = some (step h b) := by
  have hamount : shiftLeft? h 5 = some (h <<< 5) := if_pos (by decide)
  rw [step?, hamount]
  rfl

theorem foldlM_step?_eq (h : UInt32) (bytes : List UInt8) :
    bytes.foldlM step? h = some (bytes.foldl step h) := by
  induction bytes generalizing h with
  | nil => rfl
  | cons b bytes ih =>
    rw [List.foldlM_cons, step?_eq, List.foldl_cons]
    exact ih (step h b)

theorem ofText?_eq (s : String) : ofText? s = some (ofText s) := by
  rw [ofText?, foldlM_step?_eq]
  rfl

/-! ## The hash of a text -/

/-- Overflow checks never break the hash of a text off. It has 32 bits, and they are those of
the polynomial that begins with the seed. -/
theorem ofText_eq_polynomial (s : String) :
    ofText? s = some (ofText s) ∧ (ofText s).toNat < 2 ^ 32 ∧
      ((ofText s).toNat : ℤ) = polynomial 5381 (textBytes s) % 2 ^ 32 := by
  have hwide : (ofText s).toNat = (ofBytes (textBytes s)).toNat := UInt32.toNat_toUInt64 _
  have hlt : (ofText s).toNat < 2 ^ 32 := by
    rw [hwide]
    exact UInt32.toNat_lt _
  have hmod : ((ofText s).toNat : ℤ) ≡ polynomial 5381 (textBytes s) [ZMOD 2 ^ 32] := by
    rw [hwide]
    exact foldl_step_modEq seed (textBytes s)
  refine ⟨ofText?_eq s, hlt, ?_⟩
  calc ((ofText s).toNat : ℤ)
      = (ofText s).toNat % 2 ^ 32 := (Int.emod_eq_of_lt (by omega) (by omega)).symm
    _ = polynomial 5381 (textBytes s) % 2 ^ 32 := hmod

/-- Both bytes of this letter count negative. -/
example : ofText "é" = 5857809 ∧ polynomial 5381 (textBytes "é") = 5857809 := by decide

end Chaining.Times33
