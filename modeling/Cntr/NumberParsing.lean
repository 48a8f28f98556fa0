import Cntr.ByteText
import Mathlib.Algebra.GroupWithZero.Nat

/-!
Unsigned numbers as text: their digits in some base, and `from_str_radix`.
-/

namespace Cntr.NumberParsing

open Cntr.ByteText

inductive ParseIntError where
  | empty
  | invalidDigit
  | posOverflow
  deriving DecidableEq

/-- `char::to_digit` of an ASCII character. -/
def toDigit (radix : Nat) (b : UInt8) : Option Nat :=
  let digit :=
    if 48 ≤ b ∧ b ≤ 57 then some (b.toNat - 48)
    else if 97 ≤ b ∧ b ≤ 122 then some (b.toNat - 87)
    else if 65 ≤ b ∧ b ≤ 90 then some (b.toNat - 55)
    else none
  digit.filter (· < radix)

def parseDigits (radix : Nat) {limit : Nat} :
    Fin limit → Bytes → Except ParseIntError (Fin limit)
  | value, [] => .ok value
  | value, b :: text =>
      match toDigit radix b with
      | none => .error .invalidDigit
      | some digit =>
          if h : value * radix + digit < limit then
            parseDigits radix ⟨value * radix + digit, h⟩ text
          else .error .posOverflow

/-- `from_str_radix` of the unsigned type whose numbers are less than `limit`. -/
def fromStrRadix (radix limit : Nat) [NeZero limit] (text : Bytes) :
    Except ParseIntError (Fin limit) :=
  match text with
  | [] => .error .empty
  | [43] => .error .invalidDigit
  | 43 :: digits => parseDigits radix 0 digits
  | digits => parseDigits radix 0 digits

instance instNeZeroSize32 : NeZero UInt32.size := ⟨by decide⟩

instance instNeZeroSize64 : NeZero UInt64.size := ⟨by decide⟩

/-- `parse::<u32>`. -/
def parseU32 (text : Bytes) : Except ParseIntError UInt32 :=
  (fromStrRadix 10 UInt32.size text).map UInt32.ofFin

/-- `u64::from_str_radix`. -/
def parseU64 (radix : Nat) (text : Bytes) : Except ParseIntError UInt64 :=
  (fromStrRadix radix UInt64.size text).map UInt64.ofFin

def digitByte (digit : Nat) : UInt8 := digit.digitChar.toNat.toUInt8

/-- The digits of a number in a base. -/
def numeral (base n : Nat) : Bytes := (Nat.toDigits base n).map fun c => c.toNat.toUInt8

theorem numeral_ten (n : Nat) : numeral 10 n = decimal n := rfl

theorem numeral_of_lt {base n : Nat} (h : n < base) : numeral base n = [digitByte n] := by
  rw [numeral, Nat.toDigits_of_lt_base h]
  rfl

theorem numeral_of_le {base n : Nat} (hbase : 1 < base) (h : base ≤ n) :
    numeral base n = numeral base (n / base) ++ [digitByte (n % base)] := by
  rw [numeral, Nat.toDigits_of_base_le hbase h, List.map_append]
  rfl

theorem toDigit_digitByte {radix digit : Nat} (hradix : radix ≤ 16) (h : digit < radix) :
    toDigit radix (digitByte digit) = some digit := by
  have hall : ∀ d : Fin 16, toDigit 16 (digitByte d) = some d.val := by decide
  have hd := hall ⟨digit, by omega⟩
  simp only [toDigit, Option.filter_eq_some_iff] at hd ⊢
  exact ⟨hd.1, by simpa using h⟩

/-- A digit is no sign and no white space, and it stands for itself in UTF-8. -/
theorem digitByte_bounds {digit : Nat} (h : digit < 16) :
    48 ≤ (digitByte digit).toNat ∧ (digitByte digit).toNat < 128 := by
  have hall : ∀ d : Fin 16, 48 ≤ (digitByte d).toNat ∧ (digitByte d).toNat < 128 := by decide
  exact hall ⟨digit, h⟩

theorem digit_of_mem_numeral {base n : Nat} (hbase : 1 < base) (hle : base ≤ 16) {b : UInt8}
    (h : b ∈ numeral base n) : 48 ≤ b.toNat ∧ b.toNat < 128 := by
  induction n using Nat.strongRecOn with
  | ind n ih =>
      by_cases hn : n < base
      · rw [numeral_of_lt hn] at h
        rw [List.mem_singleton.mp h]
        exact digitByte_bounds (by omega)
      · rw [numeral_of_le hbase (by omega)] at h
        rcases List.mem_append.mp h with h | h
        · exact ih (n / base) (Nat.div_lt_self (by omega) hbase) h
        · rw [List.mem_singleton.mp h]
          apply digitByte_bounds
          have := Nat.mod_lt n (show 0 < base by omega)
          omega

theorem numeral_ne_nil (base n : Nat) : numeral base n ≠ [] := by
  rw [numeral, ne_eq, List.map_eq_nil_iff]
  exact Nat.toDigits_ne_nil

variable {radix limit : Nat}

theorem parseDigits_append (value : Fin limit) (text rest : Bytes) :
    parseDigits radix value (text ++ rest) =
      (parseDigits radix value text).bind fun value' => parseDigits radix value' rest := by
  induction text generalizing value with
  | nil => rfl
  | cons b text ih =>
      rw [List.cons_append, parseDigits, parseDigits]
      cases toDigit radix b with
      | none => rfl
      | some digit =>
          by_cases h : value * radix + digit < limit
          · simp only [dif_pos h]
            exact ih ⟨_, h⟩
          · simp only [dif_neg h]
            rfl

theorem parseDigits_digitByte (hradix : radix ≤ 16) {digit : Nat} (hdigit : digit < radix)
    (value : Fin limit) (h : value * radix + digit < limit) :
    parseDigits radix value [digitByte digit] = .ok ⟨value * radix + digit, h⟩ := by
  rw [parseDigits, toDigit_digitByte hradix hdigit]
  simp only [dif_pos h]
  rfl

theorem parseDigits_numeral [NeZero limit] (hradix : 1 < radix) (hle : radix ≤ 16)
    {n : Nat} (h : n < limit) :
    parseDigits radix (0 : Fin limit) (numeral radix n) = .ok ⟨n, h⟩ := by
  induction n using Nat.strongRecOn with
  | ind n ih =>
      by_cases hn : n < radix
      · have hvalue : (0 : Fin limit).val * radix + n < limit := by simpa using h
        rw [numeral_of_lt hn, parseDigits_digitByte hle hn 0 hvalue]
        simp
      · have hdiv : n / radix < n := Nat.div_lt_self (by omega) hradix
        have hmod : n % radix < radix := Nat.mod_lt n (by omega)
        have hsum : n / radix * radix + n % radix = n := Nat.div_add_mod' n radix
        rw [numeral_of_le hradix (by omega), parseDigits_append,
          ih (n / radix) hdiv (Nat.lt_trans hdiv h)]
        have hvalue : n / radix * radix + n % radix < limit := by rwa [hsum]
        refine (parseDigits_digitByte hle hmod _ hvalue).trans ?_
        simp only [hsum]

theorem fromStrRadix_of_digit [NeZero limit] {b : UInt8} (h : 48 ≤ b.toNat) (text : Bytes) :
    fromStrRadix radix limit (b :: text) = parseDigits radix 0 (b :: text) := by
  have hsign : b ≠ 43 := by
    rintro rfl
    exact absurd h (by decide)
  rw [fromStrRadix.eq_def]
  split
  · next heq => cases heq
  · next heq => exact absurd (List.cons.inj heq).1 hsign
  · next heq => exact absurd (List.cons.inj heq).1 hsign
  · rfl

theorem fromStrRadix_numeral [NeZero limit] (hradix : 1 < radix) (hle : radix ≤ 16)
    (zeros : Nat) {n : Nat} (h : n < limit) :
    fromStrRadix radix limit (List.replicate zeros (digitByte 0) ++ numeral radix n) =
      .ok ⟨n, h⟩ := by
  have hzero : (0 : Fin limit).val * radix + 0 < limit := by
    simpa using Nat.pos_of_ne_zero (NeZero.ne limit)
  have hparse : parseDigits radix (0 : Fin limit)
      (List.replicate zeros (digitByte 0) ++ numeral radix n) = .ok ⟨n, h⟩ := by
    induction zeros with
    | zero => exact parseDigits_numeral hradix hle h
    | succ zeros ih =>
        have hsame : (⟨(0 : Fin limit).val * radix + 0, hzero⟩ : Fin limit) = 0 := by
          apply Fin.ext
          simp
        rw [List.replicate_succ, List.cons_append, parseDigits,
          toDigit_digitByte hle (show 0 < radix by omega)]
        simp only [dif_pos hzero, hsame]
        exact ih
  rw [← hparse]
  cases htext : List.replicate zeros (digitByte 0) ++ numeral radix n with
  | nil =>
      rw [List.append_eq_nil_iff] at htext
      exact absurd htext.2 (numeral_ne_nil radix n)
  | cons b text =>
      apply fromStrRadix_of_digit
      have hb : b ∈ List.replicate zeros (digitByte 0) ++ numeral radix n := by
        rw [htext]
        exact List.mem_cons_self
      rcases List.mem_append.mp hb with hb | hb
      · rw [List.eq_of_mem_replicate hb]
        exact (digitByte_bounds (by decide)).1
      · exact (digit_of_mem_numeral hradix hle hb).1

theorem parseU32_decimal (n : UInt32) : parseU32 (decimal n.toNat) = .ok n := by
  have hparse := fromStrRadix_numeral (show 1 < 10 by decide) (by decide) 0 n.toNat_lt
  rw [List.replicate_zero, List.nil_append, numeral_ten] at hparse
  rw [parseU32, hparse]
  rfl

theorem parseU64_decimal (n : UInt64) : parseU64 10 (decimal n.toNat) = .ok n := by
  have hparse := fromStrRadix_numeral (show 1 < 10 by decide) (by decide) 0 n.toNat_lt
  rw [List.replicate_zero, List.nil_append, numeral_ten] at hparse
  rw [parseU64, hparse]
  rfl

/-- `%016llx`. -/
def hexMask (mask : UInt64) : Bytes :=
  List.replicate (16 - (numeral 16 mask.toNat).length) (digitByte 0) ++ numeral 16 mask.toNat

theorem parseU64_hexMask (mask : UInt64) : parseU64 16 (hexMask mask) = .ok mask := by
  have hparse := fromStrRadix_numeral (show 1 < 16 by decide) (by decide)
    (16 - (numeral 16 mask.toNat).length) mask.toNat_lt
  rw [parseU64, hexMask, hparse]
  rfl

end Cntr.NumberParsing
