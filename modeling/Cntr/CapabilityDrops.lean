import Cntr.AttemptedRemovals
import Cntr.ContainerSetup

namespace Cntr.CapabilityDrops

open Cntr.CallTree
open Cntr.AttemptedRemovals
open Cntr.SystemCalls
open Cntr.BoundingSet
open Cntr.ContainerSetup

/-- The identity of a thread, with the ids of its user namespace, and two of its
capability sets. -/
structure Thread where
  uid : Nat
  gid : Nat
  effective : BitVec 64
  bounding : BitVec 64

def capSetgid : Nat := 6

def capSetuid : Nat := 7

def capSetpcap : Nat := 8

def rootUid : Nat := 0

namespace Thread

def Holds (thread : Thread) (cap : Nat) : Prop := thread.effective.getLsbD cap = true

def MayGain (thread : Thread) (cap : Nat) : Prop := thread.bounding.getLsbD cap = true

instance (thread : Thread) (cap : Nat) : Decidable (thread.Holds cap) :=
  inferInstanceAs (Decidable (_ = _))

/-- A change of the uid from root to another one takes the effective
capabilities away. -/
def setUid (thread : Thread) (uid : Nat) : Thread :=
  { thread with
    uid := uid
    effective := if thread.uid = rootUid ∧ uid ≠ rootUid then 0 else thread.effective }

def setGid (thread : Thread) (gid : Nat) : Thread := { thread with gid := gid }

def dropBits (thread : Thread) (bits : BitVec 64) : Thread :=
  { thread with bounding := thread.bounding &&& ~~~bits }

end Thread

/-- How the kernel treats the calls of a thread that change its credentials. A
change of ids may be refused to a privileged thread as well. -/
def credentials : Kernel linux Thread
  | thread, .setThreadGid gid, .ok _, thread' =>
      (thread.Holds capSetgid ∨ gid = thread.gid) ∧ thread' = thread.setGid gid
  | thread, .setThreadUid uid, .ok _, thread' =>
      (thread.Holds capSetuid ∨ uid = thread.uid) ∧ thread' = thread.setUid uid
  | thread, .dropBounding bits, .ok _, thread' =>
      thread.Holds capSetpcap ∧ thread' = thread.dropBits bits
  | thread, .dropBounding _, .error _, thread' => ¬thread.Holds capSetpcap ∧ thread' = thread
  | thread, _, _, thread' => thread' = thread

/-- A thread that may change its ids and its bounding set. -/
structure Privileged (thread : Thread) : Prop where
  setgid : thread.Holds capSetgid
  setuid : thread.Holds capSetuid
  setpcap : thread.Holds capSetpcap

/-- The capabilities that the command may keep. -/
def Kept (processStatus : ProcStatus) (cap : Nat) : Prop :=
  processStatus.effectiveCapabilities.getLsbD cap = true ∨ cap = capSysChroot ∨
    cap = capSysPtrace

instance (processStatus : ProcStatus) (cap : Nat) : Decidable (Kept processStatus cap) :=
  inferInstanceAs (Decidable (_ ∨ _ ∨ _))

def OnlyKept (processStatus : ProcStatus) (thread : Thread) : Prop :=
  ∀ cap ≤ processStatus.lastCap, thread.MayGain cap → Kept processStatus cap

/-- What `drop` leaves of a thread, with the capabilities still to be looked at. -/
structure Dropping (mask : BitVec 64) (lastCap : Nat) (start : Thread) (rest : List Nat)
    (thread : Thread) : Prop where
  nodup : rest.Nodup
  bounded : ∀ cap ∈ rest, cap ≤ lastCap
  effective : thread.effective = start.effective
  bounding : ∀ cap, thread.MayGain cap ↔ start.MayGain cap ∧
    ¬(start.Holds capSetpcap ∧ cap ≤ lastCap ∧ cap ∉ rest ∧ mask.getLsbD cap = false)

theorem mayGain_dropBits {thread : Thread} {cap c : Nat} (hcap : cap < 64) :
    (thread.dropBits (bit cap)).MayGain c ↔ thread.MayGain c ∧ c ≠ cap := by
  have hbit : members (bit cap) = {cap} := members_one_shiftLeft hcap
  change c ∈ members (thread.bounding &&& ~~~bit cap) ↔ c ∈ members thread.bounding ∧ c ≠ cap
  rw [members_clear, hbit]
  exact Iff.rfl

section Drop

variable {mask : BitVec 64} {lastCap : Nat} {start thread : Thread}

theorem Dropping.initial (mask : BitVec 64) (lastCap : Nat) (start : Thread) :
    Dropping mask lastCap start (List.range (lastCap + 1)) start where
  nodup := List.nodup_range
  bounded := by
    intro cap hcap
    have := List.mem_range.mp hcap
    omega
  effective := rfl
  bounding := by
    intro cap
    refine ⟨fun hmay => ⟨hmay, fun ⟨_, hle, hnot, _⟩ => hnot ?_⟩, fun h => h.1⟩
    exact List.mem_range.mpr (by omega)

theorem Dropping.holds {rest : List Nat} (h : Dropping mask lastCap start rest thread)
    (cap : Nat) : thread.Holds cap ↔ start.Holds cap := by
  rw [Thread.Holds, h.effective]
  exact Iff.rfl

theorem Dropping.keep {cap : Nat} {rest : List Nat}
    (h : Dropping mask lastCap start (cap :: rest) thread)
    (hkeep : mask.getLsbD cap = true ∨ ¬start.Holds capSetpcap) :
    Dropping mask lastCap start rest thread where
  nodup := (List.nodup_cons.mp h.nodup).2
  bounded := fun c hc => h.bounded c (List.mem_cons_of_mem _ hc)
  effective := h.effective
  bounding := by
    intro c
    rw [h.bounding c]
    refine and_congr_right fun _ => not_congr ?_
    constructor
    · rintro ⟨hpcap, hle, hnot, hmask⟩
      exact ⟨hpcap, hle, fun hc => hnot (List.mem_cons_of_mem _ hc), hmask⟩
    · rintro ⟨hpcap, hle, hnot, hmask⟩
      refine ⟨hpcap, hle, fun hc => ?_, hmask⟩
      rcases List.mem_cons.mp hc with rfl | hc
      · rcases hkeep with hset | hpcap'
        · rw [hmask] at hset
          cases hset
        · exact hpcap' hpcap
      · exact hnot hc

theorem Dropping.dropBits {cap : Nat} {rest : List Nat}
    (h : Dropping mask lastCap start (cap :: rest) thread) (hlast : lastCap ≤ 63)
    (hpcap : start.Holds capSetpcap) (hmask : mask.getLsbD cap = false) :
    Dropping mask lastCap start rest (thread.dropBits (bit cap)) where
  nodup := (List.nodup_cons.mp h.nodup).2
  bounded := fun c hc => h.bounded c (List.mem_cons_of_mem _ hc)
  effective := h.effective
  bounding := by
    intro c
    have hcap : cap ≤ lastCap := h.bounded cap List.mem_cons_self
    have hfresh : cap ∉ rest := (List.nodup_cons.mp h.nodup).1
    rw [mayGain_dropBits (by omega), h.bounding c, and_assoc]
    refine and_congr_right fun _ => ?_
    constructor
    · rintro ⟨hstays, hne⟩ ⟨hpcap, hle, hnot, hclear⟩
      apply hstays
      refine ⟨hpcap, hle, fun hc => ?_, hclear⟩
      rcases List.mem_cons.mp hc with hc | hc
      · exact hne hc
      · exact hnot hc
    · intro hstays
      refine ⟨fun ⟨_, hle, hnot, hclear⟩ => hstays ⟨hpcap, hle, ?_, hclear⟩, ?_⟩
      · exact fun hc => hnot (List.mem_cons_of_mem _ hc)
      · rintro rfl
        exact hstays ⟨hpcap, hcap, hfresh, hmask⟩

theorem dropCap_wp {ε : Type} {cap : Nat} {rest : List Nat} (hlast : lastCap ≤ 63)
    (h : Dropping mask lastCap start (cap :: rest) thread) :
    (dropCap (ε := ε) mask cap).wp credentials (fun _ _ => True)
      (fun o thread' => o = .value () ∧ Dropping mask lastCap start rest thread') thread := by
  have hcap : cap ≤ lastCap := h.bounded cap List.mem_cons_self
  have hzero := and_bit_eq_zero_iff mask cap (by omega)
  by_cases hmask : mask.getLsbD cap = false
  · rw [dropCap, if_pos (hzero.mpr hmask), Program.bind_eq, Program.wp_call_bind]
    refine ⟨trivial, ?_⟩
    rintro (e | _) thread' hcall
    · obtain ⟨hpcap, rfl⟩ : ¬thread.Holds capSetpcap ∧ thread' = thread := hcall
      exact ⟨rfl, h.keep (.inr fun hstart => hpcap ((h.holds _).mpr hstart))⟩
    · obtain ⟨hpcap, rfl⟩ :
        thread.Holds capSetpcap ∧ thread' = thread.dropBits (bit cap) := hcall
      exact ⟨rfl, h.dropBits hlast ((h.holds _).mp hpcap) hmask⟩
  · rw [dropCap, if_neg (fun hmask' => hmask (hzero.mp hmask'))]
    exact ⟨rfl, h.keep (.inl (by simpa using hmask))⟩

theorem drop_wp {ε : Type} (inheritableCapabilities : BitVec 64) (hlast : lastCap ≤ 63)
    (start : Thread) :
    (drop (ε := ε) inheritableCapabilities lastCap).wp credentials (fun _ _ => True)
      (fun o thread => o = .value () ∧
        Dropping (inheritable inheritableCapabilities) lastCap start [] thread) start := by
  rw [drop, if_pos hlast]
  refine Program.wp_forEach
    (fun rest => Dropping (inheritable inheritableCapabilities) lastCap start rest) ?_ ?_
    (.initial _ _ _)
  · intro cap rest thread h
    refine Program.wp_post (dropCap_wp hlast h) ?_
    rintro o thread' ⟨rfl, h'⟩
    exact h'
  · intro thread h
    exact ⟨rfl, h⟩

theorem exists_runs_drop {ε : Type} (inheritableCapabilities : BitVec 64)
    (hlast : lastCap ≤ 63) (start : Thread) :
    ∃ thread, (drop (ε := ε) inheritableCapabilities lastCap).Runs credentials start
      (.value ()) thread := by
  rw [drop, if_pos hlast]
  apply Program.exists_runs_forEach
  intro cap thread
  by_cases hmask : inheritable inheritableCapabilities &&& bit cap = 0
  · rw [dropCap, if_pos hmask]
    by_cases hpcap : thread.Holds capSetpcap
    · have answer : credentials thread (.dropBounding (bit cap)) (.ok ())
          (thread.dropBits (bit cap)) := ⟨hpcap, rfl⟩
      exact ⟨_, .ask answer (.stop _ _)⟩
    · have answer : credentials thread (.dropBounding (bit cap)) (.error .perm) thread :=
        ⟨hpcap, rfl⟩
      exact ⟨_, .ask answer (.stop _ _)⟩
  · rw [dropCap, if_neg hmask]
    exact ⟨thread, .stop _ _⟩

end Drop

def identified (processStatus : ProcStatus) (inUserNamespace : Bool) (thread : Thread) : Thread :=
  if inUserNamespace then (thread.setGid processStatus.gid).setUid processStatus.uid else thread

section SecurityContext

variable {processStatus : ProcStatus} {inUserNamespace : Bool} {thread : Thread}

theorem setIdentity_wp :
    (setIdentity processStatus).wp credentials (fun _ _ => True)
      (fun o thread' => o = .value () →
        thread' = identified processStatus true thread) thread := by
  rw [setIdentity, Program.bind_eq, Program.wp_call_bind]
  refine ⟨trivial, fun groups thread₁ hgroups => ?_⟩
  obtain rfl : thread₁ = thread := by cases groups <;> exact hgroups
  rw [Program.bind_eq, Program.wp_call_bind]
  refine ⟨trivial, ?_⟩
  rintro (e | _) thread₂ hgid
  · intro ho
    cases ho
  obtain ⟨-, rfl⟩ : _ ∧ thread₂ = thread₁.setGid processStatus.gid := hgid
  simp only [Program.ofExcept, Program.bind_eq, Program.done_bind]
  rw [Program.wp_call_bind]
  refine ⟨trivial, ?_⟩
  rintro (e | _) thread₃ huid
  · intro ho
    cases ho
  obtain ⟨-, rfl⟩ : _ ∧ thread₃ = (thread₁.setGid processStatus.gid).setUid processStatus.uid :=
    huid
  intro _
  rfl

theorem applySecurityContext_wp (hlast : processStatus.lastCap ≤ 63) :
    (applySecurityContext processStatus inUserNamespace).wp credentials (fun _ _ => True)
      (fun o thread' => o = .value () →
        Dropping (inheritable processStatus.effectiveCapabilities) processStatus.lastCap
          (identified processStatus inUserNamespace thread) [] thread') thread := by
  have hdrop : ∀ start, (BoundingSet.drop processStatus.effectiveCapabilities
      processStatus.lastCap : Sys SetupError Unit).wp credentials (fun _ _ => True)
        (fun o thread' => o = .value () →
          Dropping (inheritable processStatus.effectiveCapabilities) processStatus.lastCap
            start [] thread') start := fun start =>
    Program.wp_post (drop_wp _ hlast start) fun o thread' h _ => h.2
  cases inUserNamespace with
  | false => exact hdrop thread
  | true =>
      simp only [applySecurityContext, if_true, Program.bind_eq]
      refine Program.wp_seq setIdentity_wp fun o thread' ho => ?_
      cases o with
      | value _ =>
          obtain rfl := ho rfl
          exact hdrop _
      | error e =>
          intro hvalue
          cases hvalue
      | halted h =>
          intro hvalue
          cases hvalue

theorem runs_setIdentity (hpriv : Privileged thread) :
    (setIdentity processStatus).Runs credentials thread (.value ())
      (identified processStatus true thread) := by
  have groups : credentials thread .setThreadGroups (.ok ()) thread := rfl
  have gid : credentials thread (.setThreadGid processStatus.gid) (.ok ())
      (thread.setGid processStatus.gid) := ⟨.inl hpriv.setgid, rfl⟩
  have uid : credentials (thread.setGid processStatus.gid)
      (.setThreadUid processStatus.uid) (.ok ()) (identified processStatus true thread) :=
    ⟨.inl hpriv.setuid, rfl⟩
  exact .ask groups (.ask gid (.ask uid (.stop _ _)))

theorem exists_runs_applySecurityContext (processStatus : ProcStatus)
    (inUserNamespace : Bool) (hlast : processStatus.lastCap ≤ 63)
    (hpriv : Privileged thread) :
    ∃ thread', (applySecurityContext processStatus inUserNamespace).Runs credentials thread
      (.value ()) thread' := by
  obtain ⟨thread', hdrop⟩ := exists_runs_drop (ε := SetupError)
    processStatus.effectiveCapabilities hlast
    (identified processStatus inUserNamespace thread)
  cases inUserNamespace with
  | false => exact ⟨thread', hdrop⟩
  | true => exact ⟨thread', (runs_setIdentity hpriv).bind hdrop⟩

theorem mayGain_identified (cap : Nat) :
    (identified processStatus inUserNamespace thread).MayGain cap ↔ thread.MayGain cap := by
  cases inUserNamespace <;> exact Iff.rfl

/-- Only a change from root to another uid costs the thread `CAP_SETPCAP`. -/
theorem holds_identified (hpriv : Privileged thread) :
    (identified processStatus inUserNamespace thread).Holds capSetpcap ↔
      ¬(inUserNamespace = true ∧ thread.uid = rootUid ∧ processStatus.uid ≠ rootUid) := by
  have hpcap := hpriv.setpcap
  cases inUserNamespace with
  | false => simpa [identified] using hpcap
  | true =>
      by_cases hroot : thread.uid = rootUid ∧ processStatus.uid ≠ rootUid
      · have hcleared : (identified processStatus true thread).effective = 0 := if_pos hroot
        simp [Thread.Holds, hcleared, hroot]
      · have hkept : (identified processStatus true thread).effective = thread.effective :=
          if_neg hroot
        rw [Thread.Holds, hkept]
        simp only [true_and, hroot, not_false_eq_true, iff_true]
        exact hpcap

theorem Dropping.onlyKept_iff {start thread' : Thread}
    (h : Dropping (inheritable processStatus.effectiveCapabilities) processStatus.lastCap start
      [] thread') :
    OnlyKept processStatus thread' ↔
      start.Holds capSetpcap ∨ OnlyKept processStatus start := by
  constructor
  · intro honly
    by_cases hpcap : start.Holds capSetpcap
    · exact .inl hpcap
    · refine .inr fun cap hcap hmay => honly cap hcap ?_
      exact (h.bounding cap).mpr ⟨hmay, fun hdropped => hpcap hdropped.1⟩
  · rintro (hpcap | honly) cap hcap hmay
    · obtain ⟨-, hnot⟩ := (h.bounding cap).mp hmay
      apply (getLsbD_inheritable _ cap).mp
      by_contra hclear
      exact hnot ⟨hpcap, hcap, by simp, by simpa using hclear⟩
    · exact honly cap hcap ((h.bounding cap).mp hmay).1

def rootThread : Thread where
  uid := 0
  gid := 0
  effective := BitVec.allOnes 64
  bounding := BitVec.allOnes 64

/-- A target without capabilities that runs as an ordinary user. -/
def userStatus : ProcStatus where
  globalPid := someTarget
  effectiveCapabilities := 0
  lastCap := 40
  uid := 1000
  gid := 1000
  lsmProfile := none

theorem privileged_rootThread : Privileged rootThread := ⟨rfl, rfl, rfl⟩

theorem exists_not_kept : ∃ cap ≤ userStatus.lastCap, rootThread.MayGain cap ∧
    ¬Kept userStatus cap :=
  ⟨21, by decide, rfl, by decide⟩

/-- The bounding set is confined to the capabilities of the target unless
setting the uid takes `CAP_SETPCAP` away before there is something to drop. -/
theorem applySecurityContext_onlyKept_iff (hlast : processStatus.lastCap ≤ 63)
    (hpriv : Privileged thread) :
    (∀ thread', (applySecurityContext processStatus inUserNamespace).Runs credentials thread
        (.value ()) thread' → OnlyKept processStatus thread') ↔
      ¬(inUserNamespace = true ∧ thread.uid = rootUid ∧ processStatus.uid ≠ rootUid ∧
        ∃ cap ≤ processStatus.lastCap, thread.MayGain cap ∧ ¬Kept processStatus cap) := by
  have hstart : OnlyKept processStatus (identified processStatus inUserNamespace thread) ↔
      OnlyKept processStatus thread :=
    forall_congr' fun cap => imp_congr_right fun _ =>
      imp_congr_left (mayGain_identified cap)
  have hend : ∀ thread', (applySecurityContext processStatus inUserNamespace).Runs credentials
      thread (.value ()) thread' → (OnlyKept processStatus thread' ↔
        ¬(inUserNamespace = true ∧ thread.uid = rootUid ∧ processStatus.uid ≠ rootUid ∧
          ∃ cap ≤ processStatus.lastCap, thread.MayGain cap ∧ ¬Kept processStatus cap)) := by
    intro thread' hrun
    have hdropped := hrun.of_wp (applySecurityContext_wp hlast) rfl
    rw [hdropped.onlyKept_iff, holds_identified hpriv, hstart]
    simp only [OnlyKept]
    grind
  constructor
  · intro honly
    obtain ⟨thread', hrun⟩ := exists_runs_applySecurityContext processStatus inUserNamespace
      hlast hpriv
    exact (hend thread' hrun).mp (honly thread' hrun)
  · intro hcond thread' hrun
    exact (hend thread' hrun).mpr hcond

theorem applySecurityContext_onlyKept_hostUser :
    ∃ thread', (applySecurityContext userStatus false).Runs credentials rootThread (.value ())
      thread' ∧ OnlyKept userStatus thread' := by
  obtain ⟨thread', hrun⟩ := exists_runs_applySecurityContext userStatus false (by decide)
    privileged_rootThread
  refine ⟨thread', hrun, ?_⟩
  exact (applySecurityContext_onlyKept_iff (by decide) privileged_rootThread).mpr
    (fun h => by cases h.1) thread' hrun

/-- After `setuid` to an ordinary user every drop fails, and the error is lost. -/
theorem applySecurityContext_keepsBoundingSet :
    Privileged rootThread ∧ ∃ thread', (applySecurityContext userStatus true).Runs credentials
      rootThread (.value ()) thread' ∧ ¬OnlyKept userStatus thread' := by
  refine ⟨privileged_rootThread, ?_⟩
  obtain ⟨thread', hrun⟩ := exists_runs_applySecurityContext userStatus true (by decide)
    privileged_rootThread
  have hdropped := hrun.of_wp (applySecurityContext_wp (by decide)) rfl
  refine ⟨thread', hrun, fun honly => ?_⟩
  rcases hdropped.onlyKept_iff.mp honly with hpcap | hstart
  · exact (holds_identified privileged_rootThread).mp hpcap ⟨rfl, rfl, by decide⟩
  · obtain ⟨cap, hcap, hmay, hnot⟩ := exists_not_kept
    exact hnot (hstart cap hcap ((mayGain_identified cap).mpr hmay))

end SecurityContext

end Cntr.CapabilityDrops
