import Cntr.SystemCalls

namespace Cntr.BoundingSet

open Cntr.CallTree
open Cntr.SystemCalls

def capSysChroot : Nat := 18

def capSysPtrace : Nat := 19

/-- `1u64 << cap`. -/
def bit (cap : Nat) : BitVec 64 := 1#64 <<< cap

/-- The capabilities that stay: those of the target and two that `exec` needs. -/
def inheritable (inheritableCapabilities : BitVec 64) : BitVec 64 :=
  inheritableCapabilities ||| bit capSysChroot ||| bit capSysPtrace

/-- The body of the loop over `0..=last_cap`; a failure is ignored. -/
def dropCap {ε : Type} (mask : BitVec 64) (cap : Nat) : Sys ε Unit :=
  if mask &&& bit cap = 0 then do
    let _ ← sys (.dropBounding (bit cap))
    return ()
  else return ()

def drop {ε : Type} (inheritableCapabilities : BitVec 64) (lastCap : Nat) : Sys ε Unit :=
  if lastCap ≤ 63 then
    .forEach (dropCap (inheritable inheritableCapabilities)) (List.range (lastCap + 1))
  else .halt .panicked

theorem and_bit_eq_zero_iff (mask : BitVec 64) (cap : Nat) (h : cap < 64) :
    mask &&& bit cap = 0 ↔ mask.getLsbD cap = false := by
  rw [bit, ← BitVec.twoPow_eq, BitVec.and_twoPow]
  cases hcap : mask.getLsbD cap with
  | false => simp
  | true =>
      have hbit : (BitVec.twoPow 64 cap).getLsbD cap = true := by
        rw [BitVec.getLsbD_twoPow]
        simp [h]
      refine ⟨fun hzero => ?_, fun hfalse => by cases hfalse⟩
      rw [if_pos rfl] at hzero
      rw [hzero] at hbit
      simp at hbit

theorem getLsbD_bit (cap c : Nat) (h : cap < 64) : (bit cap).getLsbD c = decide (c = cap) := by
  rw [bit, ← BitVec.twoPow_eq, BitVec.getLsbD_twoPow]
  simp [h, eq_comm]

theorem getLsbD_inheritable (mask : BitVec 64) (cap : Nat) :
    (inheritable mask).getLsbD cap = true ↔
      mask.getLsbD cap = true ∨ cap = capSysChroot ∨ cap = capSysPtrace := by
  simp only [inheritable, BitVec.getLsbD_or, Bool.or_eq_true,
    getLsbD_bit capSysChroot cap (by decide), getLsbD_bit capSysPtrace cap (by decide),
    decide_eq_true_eq, or_assoc]

theorem dropCap_within {ε : Type} {calls : Syscall → Prop} {halts : Halt → Prop}
    (hcalls : ∀ bits, calls (.dropBounding bits)) (mask : BitVec 64) (cap : Nat) :
    (dropCap (ε := ε) mask cap).Within calls halts := by
  by_cases hmask : mask &&& bit cap = 0
  · rw [dropCap, if_pos hmask]
    exact ⟨hcalls _, fun _ => trivial⟩
  · rw [dropCap, if_neg hmask]
    trivial

theorem drop_within {ε : Type} {calls : Syscall → Prop} {halts : Halt → Prop}
    (hcalls : ∀ bits, calls (.dropBounding bits)) (hhalts : halts .panicked)
    (mask : BitVec 64) (lastCap : Nat) :
    (drop (ε := ε) mask lastCap).Within calls halts := by
  by_cases hlast : lastCap ≤ 63
  · rw [drop, if_pos hlast]
    exact .forEach (dropCap_within hcalls _) _
  · rw [drop, if_neg hlast]
    exact hhalts

end Cntr.BoundingSet
