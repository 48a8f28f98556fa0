import Cntr.AttachParent
import Cntr.CallTreeOutcomes
import Cntr.HostCalls
import Mathlib.Data.Nat.Find

/-!
The lookup of a user by `getpwnam_r`, which is repeated with a larger buffer for
as long as the entry does not fit.
-/

namespace Cntr.UserLookup

open Cntr.ByteText
open Cntr.CallTree
open Cntr.SystemCalls
open Cntr.AttachParent (User)
open Cntr.HostCalls

variable {τ : Type}

def rangeError : Errno := ⟨34⟩

inductive PasswdError where
  | invalidName (name : Bytes)
  | getpwnam (user : Bytes) (source : Errno)
  deriving DecidableEq

def userOf (entry : PasswdEntry) : User where
  uid := entry.uid.toNat
  gid := entry.gid.toNat
  dir := fromUtf8Lossy entry.dir

/-- The body of the loop, with a buffer of the given length. -/
def lookupRound (name : Bytes) (length : Nat) : Cli τ PasswdError (Nat ⊕ Option User) := do
  match ← askHost (.getpwnam name length) with
  | .error e =>
      if e = rangeError then return .inl (length * 2)
      else .fail (.getpwnam name e)
  | .ok none => return .inr none
  | .ok (some entry) => return .inr (some (userOf entry))

def lookup (name : Bytes) : Cli τ PasswdError (Option User) :=
  if 0 ∈ name then .fail (.invalidName name)
  else .iterate (lookupRound name) 4096 .done

/-- A user database: what a search for a name gives, and how long a buffer the
search takes. -/
structure UserDatabase where
  find : Bytes → Except Errno (Option PasswdEntry)
  need : Bytes → Nat
  fits : ∀ name, find name ≠ .error rangeError

namespace UserDatabase

variable (db : UserDatabase)

def getpwnam (name : Bytes) (length : Nat) : Except Errno (Option PasswdEntry) :=
  if length < db.need name then .error rangeError else db.find name

/-- The user of a name; a C string cannot have a NUL in it. -/
def user (name : Bytes) : Except PasswdError (Option User) :=
  if 0 ∈ name then .error (.invalidName name)
  else
    match db.find name with
    | .error e => .error (.getpwnam name e)
    | .ok entry => .ok (entry.map userOf)

/-- The host answers what the database says; nothing is said of other calls. -/
def Says (_ : List (Event (linuxAndHost τ))) : Event (linuxAndHost τ) → Prop
  | ⟨.inr (.getpwnam name length), r⟩ => r = db.getpwnam name length
  | _ => True

/-- A host with this database that knows no container and refuses what it can. -/
def answer : (c : (linuxAndHost τ).Call) → (linuxAndHost τ).Answer c
  | .inl c => c.refused
  | .inr .setDumpable | .inr (.fsopen _) => .error .perm
  | .inr (.getpwnam name length) => db.getpwnam name length
  | .inr (.lookupContainerPid _ _) => .error []
  | .inr (.print _) => ()

/-- What such a host does with a call. -/
def respond (log : List (Event (linuxAndHost τ))) (c : (linuxAndHost τ).Call) :
    (linuxAndHost τ).Answer c × List (Event (linuxAndHost τ)) :=
  (db.answer c, log ++ [⟨c, db.answer c⟩])

theorem says_respond (log : List (Event (linuxAndHost τ))) (c : (linuxAndHost τ).Call) :
    recording db.Says log c (db.respond log c).1 (db.respond log c).2 := by
  refine ⟨rfl, ?_⟩
  cases c with
  | inl c => trivial
  | inr c => cases c <;> trivial

theorem exists_answer (log : List (Event (linuxAndHost τ))) (c : (linuxAndHost τ).Call) :
    ∃ r log', recording db.Says log c r log' :=
  ⟨_, _, db.says_respond log c⟩

def attempt (name : Bytes) (round : Nat) : Event (linuxAndHost τ) :=
  ⟨.inr (.getpwnam name (4096 * 2 ^ round)), db.getpwnam name (4096 * 2 ^ round)⟩

theorem exists_round (name : Bytes) : ∃ k, db.need name ≤ 4096 * 2 ^ k := by
  refine ⟨db.need name, ?_⟩
  have hlt : db.need name < 2 ^ db.need name := Nat.lt_two_pow_self
  omega

/-- The number of times the buffer is doubled. -/
def doublings (name : Bytes) : Nat := Nat.find (db.exists_round name)

theorem need_le (name : Bytes) : db.need name ≤ 4096 * 2 ^ db.doublings name :=
  Nat.find_spec (db.exists_round name)

theorem lt_need {name : Bytes} {round : Nat} (h : round < db.doublings name) :
    4096 * 2 ^ round < db.need name :=
  Nat.lt_of_not_le (Nat.find_min (db.exists_round name) h)

theorem getpwnam_of_lt {name : Bytes} {round : Nat} (h : round < db.doublings name) :
    db.getpwnam name (4096 * 2 ^ round) = .error rangeError :=
  if_pos (db.lt_need h)

theorem getpwnam_last (name : Bytes) :
    db.getpwnam name (4096 * 2 ^ db.doublings name) = db.find name :=
  if_neg (Nat.not_lt.mpr (db.need_le name))

/-- The attempts before a round, oldest first. -/
def attempts (name : Bytes) (round : Nat) : List (Event (linuxAndHost τ)) :=
  (List.range round).map (db.attempt name)

theorem attempts_succ (name : Bytes) (round : Nat) :
    (db.attempts name (round + 1) : List (Event (linuxAndHost τ))) =
      db.attempts name round ++ [db.attempt name round] := by
  simp [attempts, List.range_succ]

/-- The calls of a whole lookup. -/
def asked (name : Bytes) : List (Event (linuxAndHost τ)) :=
  if 0 ∈ name then [] else db.attempts name (db.doublings name + 1)

end UserDatabase

section Lookup

variable (db : UserDatabase) {name : Bytes} {round : Nat}
  {log : List (Event (linuxAndHost τ))}

/-- Before the last round the entry does not fit. -/
theorem lookupRound_wp_of_lt (h : round < db.doublings name) :
    (lookupRound (τ := τ) name (4096 * 2 ^ round)).wp (recording db.Says) (fun _ _ => True)
      (fun o log' => o = .value (.inl (4096 * 2 ^ (round + 1))) ∧
        log' = log ++ [db.attempt name round]) log := by
  refine ⟨trivial, ?_⟩
  rintro r _ ⟨rfl, answer⟩
  obtain rfl : r = db.getpwnam name (4096 * 2 ^ round) := answer
  have hrange := db.getpwnam_of_lt h
  rw [UserDatabase.attempt]
  simp only [hrange]
  refine ⟨?_, rfl⟩
  rw [Nat.pow_succ, ← Nat.mul_assoc]

/-- In the last round the search gives what it gives with any longer buffer. -/
theorem lookupRound_wp_last (hname : 0 ∉ name) :
    (lookupRound (τ := τ) name (4096 * 2 ^ db.doublings name)).wp (recording db.Says)
      (fun _ _ => True)
      (fun o log' => o = .ofExcept ((db.user name).map .inr) ∧
        log' = log ++ [db.attempt name (db.doublings name)]) log := by
  refine ⟨trivial, ?_⟩
  rintro r _ ⟨rfl, answer⟩
  obtain rfl : r = db.getpwnam name (4096 * 2 ^ db.doublings name) := answer
  have hlast := db.getpwnam_last name
  have hfits := db.fits name
  rw [UserDatabase.attempt, UserDatabase.user, if_neg hname]
  simp only [hlast]
  rcases hfind : db.find name with e | _ | entry
  · have hne : e ≠ rangeError := by
      rintro rfl
      exact hfits hfind
    show Program.wp _ _ (if e = rangeError then _ else _) _ _
    rw [if_neg hne]
    exact ⟨rfl, rfl⟩
  · exact ⟨rfl, rfl⟩
  · exact ⟨rfl, rfl⟩

theorem lookupRound_terminates (length : Nat) :
    (lookupRound (τ := τ) name length).Terminates (recording db.Says) log := by
  rintro (e | _ | entry) _ -
  · show Program.Terminates _ (if e = rangeError then _ else _) _
    split
    · trivial
    · trivial
  · trivial
  · trivial

/-- Every lookup comes to an end: the buffer is doubled until it is long enough, and
then the result is what the database has for the name. -/
theorem lookup_settles (name : Bytes) (log : List (Event (linuxAndHost τ))) :
    (lookup (τ := τ) name).Settles (recording db.Says) log (.ofExcept (db.user name))
      (log ++ db.asked name) := by
  rw [lookup, UserDatabase.asked]
  split
  · next hname =>
      rw [UserDatabase.user, if_pos hname, List.append_nil]
      exact .stop _ _
  · next hname =>
      constructor
      · -- what the buffer is still too short by becomes smaller in every round
        refine .iterate (fun length _ => ∃ round ≤ db.doublings name, length = 4096 * 2 ^ round)
          (fun length _ => db.need name - length) ?_ ⟨0, Nat.zero_le _, rfl⟩
        rintro _ log' ⟨round, hle, rfl⟩
        refine ⟨lookupRound_terminates db _, ?_⟩
        rcases Nat.lt_or_eq_of_le hle with hlt | rfl
        · refine Program.wp_post (lookupRound_wp_of_lt db hlt) fun o log' ho => ?_
          obtain ⟨rfl, -⟩ := ho
          have hneed := db.lt_need hlt
          have hpos : 0 < 2 ^ round := Nat.two_pow_pos round
          refine ⟨⟨round + 1, hlt, rfl⟩, ?_⟩
          rw [Nat.pow_succ]
          omega
        · refine Program.wp_post (lookupRound_wp_last db hname) fun o log' ho => ?_
          obtain ⟨rfl, -⟩ := ho
          cases db.user name <;> trivial
      · refine ⟨fun length log' => ∃ round ≤ db.doublings name, length = 4096 * 2 ^ round ∧
          log' = log ++ db.attempts name round,
          ⟨0, Nat.zero_le _, rfl, by simp [UserDatabase.attempts]⟩, ?_⟩
        rintro _ _ ⟨round, hround, rfl, rfl⟩
        rcases Nat.lt_or_eq_of_le hround with hlt | rfl
        · refine Program.wp_post (lookupRound_wp_of_lt db hlt) fun o log' ho => ?_
          obtain ⟨rfl, rfl⟩ := ho
          exact ⟨round + 1, hlt, rfl, by rw [db.attempts_succ, List.append_assoc]⟩
        · refine Program.wp_post (lookupRound_wp_last db hname) fun o log' ho => ?_
          obtain ⟨rfl, rfl⟩ := ho
          rw [db.attempts_succ, List.append_assoc]
          cases db.user name <;> exact ⟨rfl, rfl⟩

/-- Every run of a lookup asks with buffers of growing length until one is long
enough, and ends with what the database has for the name. -/
theorem lookup_runs_iff (name : Bytes) (log : List (Event (linuxAndHost τ))) :
    (lookup (τ := τ) name).Terminates (recording db.Says) log ∧
      ∀ o log', (lookup name).Runs (recording db.Says) log o log' ↔
        o = .ofExcept (db.user name) ∧ log' = log ++ db.asked name := by
  have h := lookup_settles db name log
  exact ⟨h.terminates, fun o log' => h.runs_iff db.exists_answer⟩

end Lookup

end Cntr.UserLookup
