import Cntr.CallTreeSums
import Cntr.SystemCalls

/-!
What the command line program asks besides the system: the user database, the
container engines, and the two probes of the process and the kernel.
-/

namespace Cntr.HostCalls

open Cntr.ByteText
open Cntr.CallTree
open Cntr.SystemCalls

structure PasswdEntry where
  uid : UInt32
  gid : UInt32
  dir : Bytes

/-- The texts that are printed on request; errors are not printed by a call. -/
inductive Notice where
  | help
  | attachHelp
  | execHelp
  | version
  deriving DecidableEq

inductive HostCall (τ : Type) where
  | setDumpable
  | fsopen (fsName : Bytes)
  | getpwnam (name : Bytes) (length : Nat)
  | lookupContainerPid (name : Bytes) (types : List τ)
  | print (notice : Notice)

@[reducible] def HostCall.Answer {τ : Type} : HostCall τ → Type
  | .setDumpable | .fsopen _ => Except Errno Unit
  | .getpwnam _ _ => Except Errno (Option PasswdEntry)
  | .lookupContainerPid _ _ => Except Bytes Nat
  | .print _ => Unit

@[reducible] def host (τ : Type) : Signature := ⟨HostCall τ, HostCall.Answer⟩

@[reducible] def linuxAndHost (τ : Type) : Signature := linux.sum (host τ)

abbrev Cli (τ ε α : Type) : Type 1 := Program (linuxAndHost τ) Halt ε α

variable {τ ε α : Type}

/-- Ask the host. -/
abbrev askHost (c : HostCall τ) : Cli τ ε c.Answer :=
  Program.call (S := linuxAndHost τ) (Sum.inr c)

/-- A part of the program that makes system calls only. -/
abbrev onLinux (p : Sys ε α) : Cli τ ε α := p.left

/-- Whether a byte can only go on a character. -/
def isContinuation (b : UInt8) : Bool := 0x80 ≤ b && b ≤ 0xbf

/-- The number of bytes of the character that starts with a byte, 0 if none does. -/
def characterWidth (b : UInt8) : Nat :=
  if b < 0x80 then 1
  else if 0xc2 ≤ b ∧ b ≤ 0xdf then 2
  else if 0xe0 ≤ b ∧ b ≤ 0xef then 3
  else if 0xf0 ≤ b ∧ b ≤ 0xf4 then 4
  else 0

/-- Whether a byte may be the second of the character that starts with `first`:
neither a longer form than needed, nor a surrogate, nor too large a number. -/
def maySecond (first second : UInt8) : Bool :=
  if first = 0xe0 then 0xa0 ≤ second && second ≤ 0xbf
  else if first = 0xed then 0x80 ≤ second && second ≤ 0x9f
  else if first = 0xf0 then 0x90 ≤ second && second ≤ 0xbf
  else if first = 0xf4 then 0x80 ≤ second && second ≤ 0x8f
  else isContinuation second

/-- How many bytes after `first` belong to the character it starts. -/
def followers (first : UInt8) : Bytes → Nat
  | [] => 0
  | second :: rest =>
      if characterWidth first ≥ 2 ∧ maySecond first second then
        1 + ((rest.take (characterWidth first - 2)).takeWhile isContinuation).length
      else 0

/-- `U+FFFD`. -/
def replacementCharacter : Bytes := [0xef, 0xbf, 0xbd]

/-- Every longest start of a character that is not one becomes `U+FFFD`. -/
def replaceInvalid : Nat → Bytes → Bytes
  | 0, _ => []
  | _, [] => []
  | fuel + 1, first :: rest =>
      let count := followers first rest
      if 1 + count = characterWidth first then
        first :: rest.take count ++ replaceInvalid fuel (rest.drop count)
      else replacementCharacter ++ replaceInvalid fuel (rest.drop count)

/-- `String::from_utf8_lossy`. -/
def fromUtf8Lossy (text : Bytes) : Bytes :=
  if isUtf8 text then text else replaceInvalid text.length text

example : fromUtf8Lossy [0x61, 0xe2, 0x82, 0x62, 0xff, 0xc3, 0xa9] =
    [0x61, 0xef, 0xbf, 0xbd, 0x62, 0xef, 0xbf, 0xbd, 0xc3, 0xa9] := by
  decide +kernel

end Cntr.HostCalls
