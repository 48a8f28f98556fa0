import Cntr.EnteredNamespaces

namespace Cntr.ExecConfinement

open Cntr.ByteText
open Cntr.CallTree
open Cntr.SystemCalls
open Cntr.CallsMade
open Cntr.CommandExecution
open Cntr.ConfinementSteps
open Cntr.ContainerSetup
open Cntr.EnteredNamespaces
open Cntr.ExecCommand
open Cntr.NamespaceFiles
open Cntr.PtySession

/-- The steps that `exec` takes before the command. -/
def execSteps (nss : Namespaces) (processStatus : ProcStatus) (containerRoot : Path) :
    List Step :=
  [.enter .mount (nss.target .mount)] ++ namespaceSteps nss ++
    identitySteps processStatus (nss.enters .user) ++ [.chroot containerRoot, .chdir (ascii "/")]

def ExecGuard (nss : Namespaces) (processStatus : ProcStatus) (log : Log) : Syscall → Prop
  | .exec _ _ _ => ∃ root,
      Reached true (execSteps nss processStatus root) processStatus.lsmProfile log
  | .sendmsg _ _ => False
  | _ => True

theorem execGuard_of_not_announces {nss : Namespaces} {processStatus : ProcStatus} (log : Log)
    (c : Syscall) (h : ¬Announces c) : ExecGuard nss processStatus log c := by
  cases c <;> first | exact (h trivial).elim | trivial

theorem execGuard_allows {nss : Namespaces} {processStatus : ProcStatus} :
    Allows true (Unfailed true (ExecGuard nss processStatus)) :=
  fun log c hcalm h => ⟨hcalm, execGuard_of_not_announces log c h⟩

section Exec

variable {nss : Namespaces} {processStatus : ProcStatus} {targetPid : Pid} {supported : List Bytes}
  {log : Log}

theorem openOther_wp (hsupported : ∀ kind : Kind, kind.name ∈ supported ↔ nss.supported kind = true)
    {opened : OpenedNamespaces} {kind : Kind} (h : Reached true [] none log) :
    (openOther targetPid supported opened kind).wp (namespaced nss targetPid)
      (Unfailed true (ExecGuard nss processStatus))
      (Reaches true fun opened' log' =>
        opened' = ⟨opened.otherNamespaces ++
            (if nss.enters kind then [⟨kind, nss.target kind⟩] else []),
          opened.userNsEntered || (nss.enters kind && kind = .user)⟩ ∧
        Reached true [] none log') log := by
  rw [openOther]
  refine reaches_mono (openIfOther_wp execGuard_allows (hsupported kind) h opened
    (fun ns => ⟨opened.otherNamespaces ++ [ns], opened.userNsEntered || kind = .user⟩)
    SetupError.namespaceFailed) ?_
  rintro _ log' ⟨rfl, h'⟩
  refine ⟨?_, h'⟩
  cases nss.enters kind with
  | true => simp
  | false => simp

theorem openOthers_wp
    (hsupported : ∀ kind : Kind, kind.name ∈ supported ↔ nss.supported kind = true)
    {opened : OpenedNamespaces} {kinds : List Kind} (h : Reached true [] none log) :
    (openOthers targetPid supported opened kinds).wp (namespaced nss targetPid)
      (Unfailed true (ExecGuard nss processStatus))
      (Reaches true fun opened' log' =>
        opened' = ⟨opened.otherNamespaces ++ nss.opened kinds,
          opened.userNsEntered || kinds.any (fun kind => nss.enters kind && kind = .user)⟩ ∧
        Reached true [] none log') log := by
  induction kinds generalizing opened log with
  | nil =>
      refine ⟨?_, h⟩
      simp [Namespaces.opened]
  | cons kind kinds ih =>
      refine reaches_bind (openOther_wp hsupported h) ?_
      rintro _ log₁ ⟨rfl, h₁⟩
      refine reaches_mono (ih h₁) ?_
      rintro _ log₂ ⟨rfl, h₂⟩
      refine ⟨?_, h₂⟩
      rw [opened_cons, List.append_assoc, List.any_cons, Bool.or_assoc]

theorem enterNamespaces_wp (h : Reached true [] none log) :
    (enterNamespaces targetPid).wp (namespaced nss targetPid)
      (Unfailed true (ExecGuard nss processStatus))
      (Reaches true fun inUserNs log' => inUserNs = nss.enters .user ∧
        Reached true ([.enter .mount (nss.target .mount)] ++ namespaceSteps nss) none log')
      log := by
  refine reaches_bind (reaches_mapError
    (supportedNamespaces_wp execGuard_allows h)) ?_
  rintro supported log₁ ⟨hsupported, h₁⟩
  by_cases hmount : Kind.mount.name ∈ supported
  · rw [if_neg (not_not_intro hmount)]
    refine reaches_bind (reaches_mapError (openKind_wp execGuard_allows h₁)) ?_
    rintro mountNamespace log₂ ⟨rfl, h₂⟩
    refine reaches_bind (openOthers_wp hsupported h₂) ?_
    rintro opened log₃ ⟨rfl, h₃⟩
    refine reaches_bind (reaches_mapError (apply_wp execGuard_allows _ h₃)) ?_
    intro _ log₄ h₄
    refine reaches_bind (reaches_mapError (applyAll_wp execGuard_allows _ h₄)) ?_
    intro _ log₅ h₅
    exact ⟨(Bool.false_or _).trans (any_user nss), h₅⟩
  · rw [if_pos hmount]
    exact h₁.reaches fun _ ha => by cases ha

theorem enterContainer_wp (h : Reached true [] none log) :
    (enterContainer processStatus).wp (namespaced nss processStatus.globalPid)
      (Unfailed true (ExecGuard nss processStatus))
      (Reaches true fun _ log' =>
        Reached true ([.enter .mount (nss.target .mount)] ++ namespaceSteps nss ++
          identitySteps processStatus (nss.enters .user)) none log') log := by
  refine reaches_bind (reaches_quiet execGuard_allows
    ((Program.within_call _).mpr trivial) h) fun pid log₁ h₁ => ?_
  refine reaches_bind (reaches_quiet execGuard_allows
    (quiet_of_still (moveTo_still _ _)).mapError h₁) fun _ log₂ h₂ => ?_
  refine reaches_bind (enterNamespaces_wp h₂) ?_
  rintro inUserNs log₃ ⟨rfl, h₃⟩
  exact applySecurityContext_wp execGuard_allows _ _ h₃

end Exec

section ExecChild

variable {nss : Namespaces} {processStatus : ProcStatus} {log : Log}

theorem preExec_wp {containerRoot : Path} {taken : List Step} (h : Reached true taken none log) :
    (preExec containerRoot processStatus.lsmProfile).wp
      (namespaced nss processStatus.globalPid) (Unfailed true (ExecGuard nss processStatus))
      (Reaches true fun _ log' =>
        Reached true (taken ++ [.chroot containerRoot, .chdir (ascii "/")])
          processStatus.lsmProfile log') log := by
  refine reaches_step (.chroot containerRoot) (.chroot containerRoot) (g := id)
    ⟨h.calm, trivial⟩ h ?_
    (fun _ => id) (fun _ _ => rfl) fun log₁ h₁ => ?_
  · rintro (e | _) ha
    · cases ha
    · exact ⟨rfl, id⟩
  refine reaches_step (.chdir (ascii "/")) (.chdir (ascii "/")) (g := id)
    ⟨h₁.calm, trivial⟩ h₁ ?_
    (fun _ => id) (fun _ _ => rfl) fun log₂ h₂ => ?_
  · rintro (e | _) ha
    · cases ha
    · exact ⟨rfl, id⟩
  rw [List.append_assoc, List.singleton_append] at h₂
  cases hprofile : processStatus.lsmProfile with
  | none => exact h₂
  | some profile => exact inheritProfile_wp execGuard_allows h₂

theorem execChild_wp (exe : Option Bytes) (args : List Bytes) (ptyMaster : Option Fd)
    (h : Reached true [] none log) :
    (execChild processStatus exe args ptyMaster).wp (namespaced nss processStatus.globalPid)
      (Unfailed true (ExecGuard nss processStatus)) (Reaches true fun _ _ => False) log := by
  refine reaches_bind (reaches_quiet execGuard_allows
    (attachPtySlave_quiet ptyMaster) h) fun _ log₁ h₁ => ?_
  refine reaches_bind (reaches_quiet execGuard_allows
    (quiet_of_still (cmdNew_still _ _ _ _)).mapError h₁) fun cmd log₂ h₂ => ?_
  refine reaches_bind (reaches_mapError (enterContainer_wp h₂)) fun _ log₃ h₃ => ?_
  apply reaches_mapError
  refine reaches_bind (reaches_quiet execGuard_allows
    (quiet_of_still (containerEnvironment_still cmd)) h₃) fun environment log₄ h₄ => ?_
  refine reaches_bind (reaches_mapError (preExec_wp h₄)) fun _ log₅ h₅ => ?_
  exact execute_wp (fun _ _ _ => ⟨h₅.calm, cmd.containerRoot, h₅⟩) h₅

theorem execChildBranch_wp (nss : Namespaces) (opts : ExecOptions) (ptyMaster : Option Fd)
    (h : Reached true [] none log) :
    (childBranch opts processStatus ptyMaster).wp (namespaced nss processStatus.globalPid)
      (Unfailed true (ExecGuard nss processStatus)) (Settled true) log :=
  settled_of_reaches (execChild_wp opts.command opts.arguments ptyMaster h)

theorem exec_wp (nss : Namespaces) (opts : ExecOptions) :
    (exec opts processStatus).wp (namespaced nss processStatus.globalPid)
      (ExecGuard nss processStatus) (fun _ _ => True) [] := by
  have hstart : Reached true [] none [] := reached_nil
  refine quiet_first_wp execGuard_of_not_announces createPty_quiet hstart
    fun ptyMaster log₁ h₁ => ?_
  refine fork_wp execGuard_of_not_announces h₁ fun side log₂ h₂ => ?_
  cases side with
  | child =>
      exact Program.wp_mono (fun _ _ h => h.2) _ (fun _ _ _ => trivial)
        (execChildBranch_wp nss opts ptyMaster h₂)
  | parentOf childPid =>
      exact silent_wp execGuard_of_not_announces ((execParentBranch_supervises ptyMaster
        childPid).mono (fun _ => not_announces_of_supervises) fun _ _ => trivial)

end ExecChild

end Cntr.ExecConfinement
