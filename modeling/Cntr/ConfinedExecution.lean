import Cntr.AttachConfinement
import Cntr.ExecConfinement

namespace Cntr.ConfinedExecution

open Cntr.ByteText
open Cntr.CallTree
open Cntr.SystemCalls
open Cntr.ApparmorProfile
open Cntr.AttachConfinement
open Cntr.AttachParent
open Cntr.ConfinementSteps
open Cntr.ContainerSetup
open Cntr.EnteredNamespaces
open Cntr.ExecCommand
open Cntr.ExecConfinement
open Cntr.IdmapHelperProcess
open Cntr.WholeWrites

/-- The process is in the namespaces of the target that differ from its own, and
has the ids of the target if it entered a user namespace for it. -/
structure Placed (nss : Namespaces) (processStatus : ProcStatus) (log : Log) : Prop where
  entered : ∀ kind, kind ≠ .mount → nss.supported kind = true →
    nss.target kind ≠ nss.own kind → .enter kind (nss.target kind) ∈ steps log
  identified : ∀ ns, .enter .user ns ∈ steps log →
    [.enter .user ns, .gid processStatus.gid, .uid processStatus.uid].Sublist (steps log)

/-- The change to the profile of the target, if it has one, was written to the end. -/
def Profiled (processStatus : ProcStatus) (log : Log) : Prop :=
  ∀ profile, processStatus.lsmProfile = some profile →
    writtenTo (.atPath profile.ownPath .write) log = changeProfile profile.label

structure Rooted (nss : Namespaces) (log : Log) : Prop where
  mount : .enter .mount (nss.target .mount) ∈ steps log
  root : ∃ containerRoot, [.chroot containerRoot, .chdir (ascii "/")].Sublist (steps log)

theorem mem_otherKinds {kind : Kind} (h : kind ≠ .mount) : kind ∈ otherKinds := by
  cases kind <;> first | exact (h rfl).elim | decide

theorem mem_namespaceSteps (nss : Namespaces) {kind : Kind} (hkind : kind ≠ .mount)
    (henters : nss.enters kind = true) :
    .enter kind (nss.target kind) ∈ namespaceSteps nss := by
  refine List.mem_map.mpr ⟨⟨kind, nss.target kind⟩, List.mem_map.mpr ⟨kind, ?_, rfl⟩, rfl⟩
  exact List.mem_filter.mpr ⟨mem_otherKinds hkind, henters⟩

theorem enters_of_mem_namespaceSteps {nss : Namespaces} {kind : Kind} {ns : NsId}
    (h : .enter kind ns ∈ namespaceSteps nss) : nss.enters kind = true := by
  obtain ⟨opened, hmem, hstep⟩ := List.mem_map.mp h
  obtain ⟨kind', hkind', rfl⟩ := List.mem_map.mp hmem
  obtain ⟨rfl, -⟩ := Step.enter.inj hstep
  exact (List.mem_filter.mp hkind').2

theorem placed_of_steps {nss : Namespaces} {processStatus : ProcStatus} {log : Log}
    {before after : List Step}
    (hsteps : steps log = before ++ namespaceSteps nss ++
      identitySteps processStatus (nss.enters .user) ++ after)
    (hbefore : ∀ ns, .enter .user ns ∉ before) (hafter : ∀ ns, .enter .user ns ∉ after) :
    Placed nss processStatus log := by
  constructor
  · intro kind hkind hsupported hdiffers
    have henters : nss.enters kind = true := by
      simp [Namespaces.enters, Namespaces.same, hsupported, hdiffers]
    rw [hsteps]
    simp [mem_namespaceSteps nss hkind henters]
  · intro ns hmem
    have huser : .enter .user ns ∈ namespaceSteps nss := by
      rw [hsteps] at hmem
      rcases List.mem_append.mp hmem with hmem | hmem
      · rcases List.mem_append.mp hmem with hmem | hmem
        · rcases List.mem_append.mp hmem with hmem | hmem
          · exact (hbefore ns hmem).elim
          · exact hmem
        · unfold identitySteps at hmem
          split at hmem <;> simp at hmem
      · exact (hafter ns hmem).elim
    rw [hsteps, enters_of_mem_namespaceSteps huser]
    have hfirst : [Step.enter .user ns].Sublist (before ++ namespaceSteps nss) :=
      List.singleton_sublist.mpr (List.mem_append_right _ huser)
    exact (hfirst.append (List.Sublist.refl _)).trans (List.sublist_append_left _ _)

theorem profiled_of_reached {inExec : Bool} {taken : List Step} {processStatus : ProcStatus}
    {log : Log} (h : Reached inExec taken processStatus.lsmProfile log) :
    Profiled processStatus log := by
  intro profile hprofile
  rw [h.written, hprofile]
  exact if_pos rfl

theorem attach_placed {nss : Namespaces} {processStatus : ProcStatus} {log : Log} {own : NsId}
    {rest : List Step} {profile : Option LSMProfile}
    (h : Reached false (attachSteps nss processStatus own ++ rest) profile log)
    (hrest : ∀ ns, .enter .user ns ∉ rest) : Placed nss processStatus log := by
  apply placed_of_steps h.steps_eq
  · intro ns hmem
    simp at hmem
  · exact hrest

theorem exec_placed {nss : Namespaces} {processStatus : ProcStatus} {log : Log} {root : Path}
    {profile : Option LSMProfile}
    (h : Reached true (execSteps nss processStatus root) profile log) :
    Placed nss processStatus log := by
  apply placed_of_steps h.steps_eq
  · intro ns hmem
    simp at hmem
  · intro ns hmem
    simp at hmem

theorem exec_rooted {nss : Namespaces} {processStatus : ProcStatus} {log : Log} {root : Path}
    {profile : Option LSMProfile}
    (h : Reached true (execSteps nss processStatus root) profile log) :
    Rooted nss log := by
  constructor
  · rw [h.steps_eq]
    simp [execSteps]
  · refine ⟨root, ?_⟩
    rw [h.steps_eq]
    exact List.sublist_append_right _ _

/-- What is shown of a program and of the child that it forks: the command is
executed when `Confined` holds, the parent is told when `Ready` holds, and a
failed step is the last thing that the child does before it ends with the exit
code 1, without the command. -/
structure Confines {ε : Type} (nss : Namespaces) (targetPid : Pid) (inExec : Bool)
    (program : Sys ε Empty) (child : Sys ε Empty → Prop) (Confined Ready : Log → Prop) :
    Prop where
  executed : ∀ command arguments envs log,
    program.Issues (namespaced nss targetPid) [] (.exec command arguments envs) log → Confined log
  announced : ∀ message files log,
    program.Issues (namespaced nss targetPid) [] (.sendmsg message files) log → Ready log
  failed : ∀ branch, child branch → ∀ o log,
    branch.Runs (namespaced nss targetPid) [] o log → Settled inExec o log
  last : ∀ branch, child branch → ∀ c log,
    branch.Issues (namespaced nss targetPid) [] c log → ∀ ev ∈ log, ¬FailedStep inExec ev

theorem attach_confines (nss : Namespaces) (opts : AttachOptions) (processStatus : ProcStatus) :
    Confines nss processStatus.globalPid false (attach opts processStatus)
      (fun branch => ∃ idmapHelper, branch =
        AttachParent.childBranch (childOptions opts processStatus idmapHelper))
      (fun log => Placed nss processStatus log ∧ Profiled processStatus log)
      (Placed nss processStatus) := by
  constructor
  · intro command arguments envs log issue
    obtain ⟨own, rest, hrest, h⟩ := issue.of_wp (attach_wp nss opts)
    refine ⟨attach_placed h fun ns hmem => ?_, profiled_of_reached h⟩
    rcases hrest with rfl | ⟨dir, rfl⟩ <;> simp at hmem
  · intro message files log issue
    obtain ⟨own, h⟩ := issue.of_wp (attach_wp nss opts)
    rw [← List.append_nil (attachSteps nss processStatus own)] at h
    exact attach_placed h fun ns hmem => by cases hmem
  · rintro _ ⟨idmapHelper, rfl⟩ o log run
    exact run.of_wp (attachChildBranch_wp nss
      (childOptions opts processStatus idmapHelper) reached_nil)
  · rintro _ ⟨idmapHelper, rfl⟩ c log issue
    exact (issue.of_wp (attachChildBranch_wp nss
      (childOptions opts processStatus idmapHelper) reached_nil)).1

theorem exec_confines (nss : Namespaces) (opts : ExecOptions) (processStatus : ProcStatus) :
    Confines nss processStatus.globalPid true (exec opts processStatus)
      (fun branch => ∃ ptyMaster, branch =
        ExecCommand.childBranch opts processStatus ptyMaster)
      (fun log => Placed nss processStatus log ∧ Rooted nss log ∧ Profiled processStatus log)
      fun _ => False := by
  constructor
  · intro command arguments envs log issue
    obtain ⟨root, h⟩ := issue.of_wp (exec_wp nss opts)
    exact ⟨exec_placed h, exec_rooted h, profiled_of_reached h⟩
  · intro message files log issue
    exact issue.of_wp (exec_wp nss opts)
  · rintro _ ⟨ptyMaster, rfl⟩ o log run
    exact run.of_wp (execChildBranch_wp nss opts ptyMaster reached_nil)
  · rintro _ ⟨ptyMaster, rfl⟩ c log issue
    exact (issue.of_wp (execChildBranch_wp nss opts ptyMaster reached_nil)).1

/-- The command is executed by neither subcommand before the process is confined
as the status of the target demands. -/
theorem command_confined (nss : Namespaces) (processStatus : ProcStatus)
    (attachOpts : AttachOptions) (execOpts : ExecOptions) :
    Confines nss processStatus.globalPid false (attach attachOpts processStatus)
        (fun branch => ∃ idmapHelper, branch =
          AttachParent.childBranch (childOptions attachOpts processStatus idmapHelper))
        (fun log => Placed nss processStatus log ∧ Profiled processStatus log)
        (Placed nss processStatus) ∧
      Confines nss processStatus.globalPid true (exec execOpts processStatus)
        (fun branch => ∃ ptyMaster, branch =
          ExecCommand.childBranch execOpts processStatus ptyMaster)
        (fun log => Placed nss processStatus log ∧ Rooted nss log ∧ Profiled processStatus log)
        (fun _ => False) :=
  ⟨attach_confines nss attachOpts processStatus, exec_confines nss execOpts processStatus⟩

end Cntr.ConfinedExecution
