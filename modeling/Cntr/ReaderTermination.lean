import Cntr.AttachChild
import Cntr.CallTreeTermination

/-!
Whether the two loops over the items of a file come to an end, for any sequence
of items the reader may give.
-/

namespace Cntr.ReaderTermination

open Cntr.ByteText
open Cntr.CallTree
open Cntr.SystemCalls
open Cntr.AttachChild
open Cntr.CommandExecution

/-- What the iterator of a reader gives when it is asked for the n-th time: an
error each time a read fails, and `none` at the end of the file. -/
abbrev Items : Type := Nat → Except IoError (Option Bytes)

/-- A kernel with a file whose reader gives these items; the state counts them.
Every other call may be answered in any way. -/
def serving (items : Items) : Kernel linux Nat
  | n, .nextSplit _ _, r, n' => r = items n ∧ n' = n + 1
  | n, .nextLine _, r, n' => r = items n ∧ n' = n + 1
  | n, _, _, n' => n' = n

/-- The reader comes to the end of the file. -/
def ReachesEnd (items : Items) : Prop := ∃ n, items n = .ok none

/-- A round of a loop over the items: it asks for one, goes on unless there is
none, and leaves the reader alone otherwise. -/
structure Round (items : Items) {ε β γ : Type} (body : β → Sys ε (β ⊕ γ)) : Prop where
  terminates : ∀ b n, (body b).Terminates (serving items) n
  next : ∀ b n, items n ≠ .ok none → (body b).wp (serving items) (fun _ _ => True)
    (fun o n' => n' = n + 1 ∧ ∃ b', o = .value (.inl b')) n
  last : ∀ b n, items n = .ok none → (body b).wp (serving items) (fun _ _ => True)
    (fun o _ => ∃ c, o = .value (.inr c)) n

section Reading

variable {items : Items} {ε : Type} {β γ : Type}

/-- One of the answers that the kernel may give, and the count after it. -/
def reply (items : Items) (n : Nat) : (c : Syscall) → c.Answer × Nat
  | .nextSplit _ _ => (items n, n + 1)
  | .nextLine _ => (items n, n + 1)
  | c => (c.refused, n)

theorem serving_reply (n : Nat) (c : Syscall) :
    serving items n c (reply items n c).1 (reply items n c).2 := by
  cases c with
  | nextSplit file delimiter => exact ⟨rfl, rfl⟩
  | nextLine file => exact ⟨rfl, rfl⟩
  | _ => rfl

theorem Round.loop_terminates_iff {body : β → Sys ε (β ⊕ γ)} (round : Round items body) (b : β) :
    (Program.iterate body b .done).Terminates (serving items) 0 ↔ ReachesEnd items := by
  constructor
  · intro h
    by_contra hend
    have hnever : ∀ n, items n ≠ .ok none := fun n hn => hend ⟨n, hn⟩
    refine Program.not_terminates_iterate (fun _ _ => True) (fun b n _ => ?_) trivial h
    obtain ⟨o, n', run⟩ := (round.terminates b n).exists_runs fun n c => ⟨_, _, serving_reply n c⟩
    obtain ⟨-, b', rfl⟩ := run.of_wp (round.next b n (hnever n))
    exact ⟨b', n', run, trivial⟩
  · rintro ⟨stop, hstop⟩
    -- the items from the current one up to the end are the measure
    refine .iterate (fun _ n => n ≤ stop) (fun _ n => stop - n) (fun b n hn => ?_)
      (Nat.zero_le stop)
    refine ⟨round.terminates b n, ?_⟩
    by_cases hend : items n = .ok none
    · refine Program.wp_post (round.last b n hend) fun o n' ho => ?_
      obtain ⟨c, rfl⟩ := ho
      trivial
    · have hne : n ≠ stop := by
        rintro rfl
        exact hend hstop
      refine Program.wp_post (round.next b n hend) fun o n' ho => ?_
      obtain ⟨rfl, b', rfl⟩ := ho
      show n + 1 ≤ stop ∧ stop - (n + 1) < stop - n
      omega

theorem environmentRound_round (file : File) : Round items (environmentRound file) where
  terminates := by
    rintro vars n (e | _ | var) _ _
    · trivial
    · trivial
    · trivial
  next := by
    rintro vars n hnext
    refine ⟨trivial, ?_⟩
    rintro (e | _ | var) n' ⟨heq, rfl⟩
    · exact ⟨rfl, _, rfl⟩
    · exact absurd heq.symm hnext
    · exact ⟨rfl, _, rfl⟩
  last := by
    rintro vars n hlast
    refine ⟨trivial, ?_⟩
    rintro r n' ⟨rfl, rfl⟩
    rw [hlast]
    exact ⟨_, rfl⟩

theorem idmapLine_terminates (usernsFd : NsId) (baseDir : Path) (line : Bytes) (n : Nat) :
    (idmapLine usernsFd baseDir line).Terminates (serving items) n := by
  rw [idmapLine]
  split
  · split
    · next mountPoint _ =>
        rintro (e | tree) n' -
        · trivial
        show ((idmapTree usernsFd mountPoint tree).bind _).Terminates _ _
        refine .bind ?_ fun _ _ _ _ _ => trivial
        rintro (e | _) _ -
        · trivial
        · exact fun _ _ _ => trivial
    · trivial
  · trivial

/-- Whatever becomes of a mount, nothing is read and the loop goes on. -/
theorem idmapLine_wp (usernsFd : NsId) (baseDir : Path) (line : Bytes) (n : Nat) :
    (idmapLine usernsFd baseDir line).wp (serving items) (fun _ _ => True)
      (fun o n' => n' = n ∧ o = .value ()) n := by
  rw [idmapLine]
  split
  · split
    · next mountPoint _ =>
        refine ⟨trivial, ?_⟩
        rintro (e | tree) n' answer
        · exact ⟨answer, rfl⟩
        obtain rfl : n' = n := answer
        have htree : (idmapTree usernsFd mountPoint tree).wp (serving items) (fun _ _ => True)
            (fun o n'' => n'' = n' ∧ o = .value ()) n' := by
          refine ⟨trivial, ?_⟩
          rintro (e | _) n'' answer
          · exact ⟨answer, rfl⟩
          · obtain rfl : n'' = n' := answer
            exact ⟨trivial, fun _ _ answer => ⟨answer, rfl⟩⟩
        show ((idmapTree usernsFd mountPoint tree).bind _).wp _ _ _ _
        refine Program.wp_seq htree fun o n'' ho => ?_
        obtain ⟨rfl, rfl⟩ := ho
        exact ⟨trivial, fun _ _ answer => ⟨answer, rfl⟩⟩
    · exact ⟨rfl, rfl⟩
  · exact ⟨rfl, rfl⟩

theorem idmapRound_round (usernsFd : NsId) (baseDir : Path) :
    Round items (fun _ : Unit => idmapRound usernsFd baseDir) where
  terminates := by
    rintro _ n (e | _ | line) _ _
    · trivial
    · trivial
    · show ((idmapLine usernsFd baseDir line).bind _).Terminates _ _
      exact (idmapLine_terminates usernsFd baseDir line _).bind fun _ _ => trivial
  next := by
    rintro _ n hnext
    refine ⟨trivial, ?_⟩
    rintro (e | _ | line) n' ⟨heq, rfl⟩
    · exact ⟨rfl, _, rfl⟩
    · exact absurd heq.symm hnext
    · show ((idmapLine usernsFd baseDir line).bind _).wp _ _ _ _
      refine Program.wp_seq (idmapLine_wp usernsFd baseDir line (n + 1)) fun o n' ho => ?_
      obtain ⟨rfl, rfl⟩ := ho
      exact ⟨rfl, _, rfl⟩
  last := by
    rintro _ n hlast
    refine ⟨trivial, ?_⟩
    rintro r n' ⟨rfl, rfl⟩
    rw [hlast]
    exact ⟨_, rfl⟩

theorem getPath_terminates :
    (Procfs.getPath (ε := CmdError)).Terminates (serving items) 0 := by
  rintro (_ | path) _ _
  · trivial
  · trivial

theorem getPath_wp : (Procfs.getPath (ε := CmdError)).wp (serving items) (fun _ _ => True)
    (fun _ n => n = 0) 0 := by
  refine ⟨trivial, ?_⟩
  rintro (_ | path) n answer
  · exact answer
  · exact answer

theorem readEnvironment_terminates_iff (pid : Pid) :
    (readEnvironment pid).Terminates (serving items) 0 ↔ ReachesEnd items := by
  rw [readEnvironment, Program.bind_eq, Program.terminates_bind]
  constructor
  · rintro ⟨-, h⟩
    have hpath : (Procfs.getPath (ε := CmdError)).Runs (serving items) 0
        (.value (ascii "/proc")) 0 := .ask (r := none) rfl (.stop _ _)
    exact ((environmentRound_round _).loop_terminates_iff _).mp (h _ 0 hpath (.ok ()) 0 rfl)
  · intro hend
    refine ⟨getPath_terminates, fun path n run => ?_⟩
    obtain rfl : n = 0 := run.of_wp getPath_wp
    rintro (e | _) n' answer
    · trivial
    · obtain rfl : n' = 0 := answer
      exact ((environmentRound_round _).loop_terminates_iff _).mpr hend

theorem applyIdmappedMounts_terminates_iff (usernsFd : NsId) (baseDir : Path) :
    (applyIdmappedMounts usernsFd baseDir).Terminates (serving items) 0 ↔ ReachesEnd items := by
  constructor
  · intro h
    exact ((idmapRound_round usernsFd baseDir).loop_terminates_iff ()).mp (h (.ok ()) 0 rfl)
  · rintro hend (e | _) n' answer
    · trivial
    · obtain rfl : n' = 0 := answer
      exact ((idmapRound_round usernsFd baseDir).loop_terminates_iff ()).mpr hend

end Reading

/-- Both loops come to an end for exactly those files whose end is reached. -/
theorem readers_terminate_iff (items : Items) :
    (∀ pid, (readEnvironment pid).Terminates (serving items) 0 ↔ ReachesEnd items) ∧
      ∀ usernsFd baseDir, (applyIdmappedMounts usernsFd baseDir).Terminates (serving items) 0 ↔
        ReachesEnd items :=
  ⟨readEnvironment_terminates_iff, applyIdmappedMounts_terminates_iff⟩

def isdir : Errno := ⟨21⟩

/-- A directory can be opened, but every read of it fails. -/
def directoryItems : Items := fun _ => .error (.os isdir)

theorem readers_spinOnDirectory :
    ¬(readEnvironment somePid).Terminates (serving directoryItems) 0 ∧
      ¬(applyIdmappedMounts 1 (ascii "/var/lib/cntr")).Terminates (serving directoryItems) 0 := by
  have hnever : ¬ReachesEnd directoryItems := by
    rintro ⟨n, hn⟩
    cases hn
  constructor
  · intro h
    exact hnever ((readEnvironment_terminates_iff somePid).mp h)
  · intro h
    exact hnever ((applyIdmappedMounts_terminates_iff 1 _).mp h)

end Cntr.ReaderTermination
