import Cntr.ConfinedExecution

namespace Cntr.NamespaceMembership

open Cntr.ByteText
open Cntr.CallTree
open Cntr.SystemCalls
open Cntr.AttachConfinement
open Cntr.AttachParent
open Cntr.ConfinedExecution
open Cntr.ConfinementSteps
open Cntr.ContainerSetup
open Cntr.EnteredNamespaces
open Cntr.ExecCommand
open Cntr.ExecConfinement

/-- The process that made the calls is in the target's namespace of a kind. -/
def Member (nss : Namespaces) (log : Log) (kind : Kind) : Prop :=
  membership nss.own log kind = some (nss.target kind)

/-- There is nothing to enter for the PID kind. -/
def PidShared (nss : Namespaces) : Prop :=
  nss.supported .pid = true → nss.own .pid = nss.target .pid

def isEnterOther : Step → Bool
  | .enter kind _ => kind ≠ .mount
  | _ => false

/-- The namespaces that were entered, other than mount namespaces. -/
def enteredOthers (log : Log) : List Step := (steps log).filter isEnterOther

theorem move_opened (nss : Namespaces) (kinds : List Kind) (member : Membership) (kind : Kind) :
    (((nss.opened kinds).map enterStep).foldl move member) kind =
      if kind ≠ .pid ∧ kind ∈ kinds ∧ nss.enters kind = true then some (nss.target kind)
      else member kind := by
  induction kinds generalizing member with
  | nil => simp [Namespaces.opened]
  | cons first kinds ih =>
      rw [opened_cons, List.map_append, List.foldl_append, ih]
      by_cases hfirst : nss.enters first = true
      · simp only [hfirst, if_true, List.map_cons, List.map_nil, List.foldl_cons, List.foldl_nil,
          enterStep]
        by_cases hkind : kind = first
        · subst hkind
          cases kind <;> simp [move, hfirst]
        · have hmove : move member (.enter first (nss.target first)) kind = member kind := by
            cases first <;> simp [move, hkind]
          simp [hmove, hkind]
      · have hfirst' : nss.enters first = false := by simpa using hfirst
        by_cases hkind : kind = first
        · subst hkind
          simp [hfirst']
        · simp [hfirst', hkind]

theorem move_identity (processStatus : ProcStatus) (inUserNamespace : Bool)
    (member : Membership) :
    (identitySteps processStatus inUserNamespace).foldl move member = member := by
  cases inUserNamespace <;> rfl

theorem membership_of_steps {nss : Namespaces} {processStatus : ProcStatus} {log : Log}
    {before after : List Step} (hsteps : steps log = before ++ namespaceSteps nss ++
      identitySteps processStatus (nss.enters .user) ++ after)
    (hafter : ∀ member, after.foldl move member = member) (kind : Kind) :
    membership nss.own log kind =
      if kind ≠ .pid ∧ kind ∈ otherKinds ∧ nss.enters kind = true then some (nss.target kind)
      else before.foldl move (fun kind => some (nss.own kind)) kind := by
  rw [membership, hsteps, List.foldl_append, List.foldl_append, List.foldl_append, hafter,
    move_identity, namespaceSteps, move_opened]

/-- A kind that the kernel has is entered, unless there is no difference. -/
theorem eq_target_of_not_enters {nss : Namespaces} {kind : Kind}
    (hsupported : nss.supported kind = true) (henters : ¬nss.enters kind = true) :
    nss.own kind = nss.target kind := by
  have hsame : nss.same kind = true := by
    simpa [Namespaces.enters, hsupported] using henters
  rw [Namespaces.same, Bool.and_eq_true, decide_eq_true_eq] at hsame
  exact hsame.2.symm

/-- Every kind but the PID kind is as the target has it. -/
theorem member_iff_of_steps {nss : Namespaces} {processStatus : ProcStatus} {log : Log}
    {before after : List Step} (hsteps : steps log = before ++ namespaceSteps nss ++
      identitySteps processStatus (nss.enters .user) ++ after)
    (hafter : ∀ member, after.foldl move member = member)
    (hbefore : ∀ kind, kind ≠ .mount →
      before.foldl move (fun kind => some (nss.own kind)) kind = some (nss.own kind))
    {kind : Kind} (hkind : kind ≠ .mount) (hsupported : nss.supported kind = true) :
    Member nss log kind ↔ (kind = .pid → nss.own .pid = nss.target .pid) := by
  rw [Member, membership_of_steps hsteps hafter]
  by_cases hpid : kind = .pid
  · subst hpid
    simp [hbefore .pid (by decide)]
  · by_cases henters : nss.enters kind = true
    · simp [hpid, mem_otherKinds hkind, henters]
    · simp [hpid, henters, hbefore kind hkind, eq_target_of_not_enters hsupported henters]

section Reached

variable {nss : Namespaces} {processStatus : ProcStatus} {log : Log}

theorem exec_members_iff {root : Path} {inExec : Bool} {profile : Option ApparmorProfile.LSMProfile}
    (h : Reached inExec (execSteps nss processStatus root) profile log) :
    (∀ kind, nss.supported kind = true → Member nss log kind) ↔ PidShared nss := by
  have hmember : ∀ kind, kind ≠ .mount → nss.supported kind = true →
      (Member nss log kind ↔ (kind = .pid → nss.own .pid = nss.target .pid)) := by
    intro kind hkind hsupported
    refine member_iff_of_steps h.steps_eq (fun _ => rfl) (fun kind hkind => ?_) hkind hsupported
    simp [move, hkind]
  constructor
  · intro hall hsupported
    exact (hmember .pid (by decide) hsupported).mp (hall .pid hsupported) rfl
  · intro hshared kind hsupported
    by_cases hkind : kind = .mount
    · subst hkind
      rw [Member, membership_of_steps h.steps_eq fun _ => rfl]
      simp [otherKinds, move]
    · refine (hmember kind hkind hsupported).mpr ?_
      rintro rfl
      exact hshared hsupported

theorem attach_members_iff {own : NsId} {rest : List Step} {inExec : Bool}
    {profile : Option ApparmorProfile.LSMProfile} (hrest : rest = [] ∨ ∃ dir, rest = [.chdir dir])
    (h : Reached inExec (attachSteps nss processStatus own ++ .ready :: rest) profile log) :
    (∀ kind, kind ≠ .mount → nss.supported kind = true → Member nss log kind) ↔
      PidShared nss := by
  have hmember : ∀ kind, kind ≠ .mount → nss.supported kind = true →
      (Member nss log kind ↔ (kind = .pid → nss.own .pid = nss.target .pid)) := by
    intro kind hkind hsupported
    refine member_iff_of_steps h.steps_eq ?_ (fun kind hkind => ?_) hkind hsupported
    · intro member
      rcases hrest with rfl | ⟨dir, rfl⟩ <;> rfl
    · simp [move, hkind]
  constructor
  · intro hall hsupported
    exact (hmember .pid (by decide) hsupported).mp (hall .pid (by decide) hsupported) rfl
  · intro hshared kind hkind hsupported
    refine (hmember kind hkind hsupported).mpr ?_
    rintro rfl
    exact hshared hsupported

theorem filter_namespaceSteps (nss : Namespaces) :
    (namespaceSteps nss).filter isEnterOther = namespaceSteps nss := by
  apply List.filter_eq_self.mpr
  intro step hmem
  obtain ⟨opened, hopened, rfl⟩ := List.mem_map.mp hmem
  obtain ⟨kind, hkind, rfl⟩ := List.mem_map.mp hopened
  have hother := (List.mem_filter.mp hkind).1
  have hne : kind ≠ .mount := by
    rintro rfl
    exact absurd hother (by decide)
  simpa [isEnterOther, enterStep] using hne

theorem filter_identitySteps (inUserNamespace : Bool) :
    (identitySteps processStatus inUserNamespace).filter isEnterOther = [] := by
  cases inUserNamespace <;> rfl

theorem enteredOthers_of_steps {before after : List Step}
    (hsteps : steps log = before ++ namespaceSteps nss ++
      identitySteps processStatus (nss.enters .user) ++ after)
    (hbefore : before.filter isEnterOther = []) (hafter : after.filter isEnterOther = []) :
    enteredOthers log = namespaceSteps nss := by
  rw [enteredOthers, hsteps]
  simp [List.filter_append, hbefore, hafter, filter_namespaceSteps, filter_identitySteps]

end Reached

def Executes {ε : Type} (nss : Namespaces) (targetPid : Pid) (program : Sys ε Empty)
    (log : Log) : Prop :=
  ∃ command arguments envs,
    program.Issues (namespaced nss targetPid) [] (.exec command arguments envs) log

/-- The uid was set, as is to be done in a user namespace that was entered. -/
def SetsUid (processStatus : ProcStatus) (log : Log) : Prop :=
  .uid processStatus.uid ∈ steps log

theorem setsUid_of_steps {nss : Namespaces} {processStatus : ProcStatus} {log : Log}
    {before after : List Step} (hsteps : steps log = before ++ namespaceSteps nss ++
      identitySteps processStatus (nss.enters .user) ++ after)
    (hbefore : ∀ uid, .uid uid ∉ before) (hafter : ∀ uid, .uid uid ∉ after) :
    SetsUid processStatus log ↔ nss.enters .user = true := by
  have hnone : ∀ uid, .uid uid ∉ namespaceSteps nss := by
    intro uid hmem
    obtain ⟨opened, -, hstep⟩ := List.mem_map.mp hmem
    cases hstep
  rw [SetsUid, hsteps]
  cases nss.enters .user <;> simp [identitySteps, hbefore, hafter, hnone]

/-- Wherever the command is executed, the process is in every namespace of the
target but the PID namespace, which is the one it started in. Both subcommands
enter the same namespaces. -/
theorem members_iff_pidShared (nss : Namespaces) (processStatus : ProcStatus)
    (attachOpts : AttachOptions) (execOpts : ExecOptions) :
    (∀ log, Executes nss processStatus.globalPid (exec execOpts processStatus) log →
      ((∀ kind, nss.supported kind = true → Member nss log kind) ↔ PidShared nss)) ∧
    (∀ log, Executes nss processStatus.globalPid (attach attachOpts processStatus) log →
      ((∀ kind, kind ≠ .mount → nss.supported kind = true → Member nss log kind) ↔
        PidShared nss)) ∧
    ∀ log log', Executes nss processStatus.globalPid (exec execOpts processStatus) log →
      Executes nss processStatus.globalPid (attach attachOpts processStatus) log' →
      enteredOthers log = enteredOthers log' ∧
        (SetsUid processStatus log ↔ SetsUid processStatus log') := by
  refine ⟨?_, ?_, ?_⟩
  · rintro log ⟨command, arguments, envs, issue⟩
    obtain ⟨root, h⟩ := issue.of_wp (exec_wp nss execOpts)
    exact exec_members_iff h
  · rintro log ⟨command, arguments, envs, issue⟩
    obtain ⟨own, rest, hrest, h⟩ := issue.of_wp (attach_wp nss attachOpts)
    exact attach_members_iff hrest h
  · rintro log log' ⟨_, _, _, issue⟩ ⟨_, _, _, issue'⟩
    obtain ⟨root, h⟩ := issue.of_wp (exec_wp nss execOpts)
    obtain ⟨own, rest, hrest, h'⟩ := issue'.of_wp (attach_wp nss attachOpts)
    have hready : (Step.ready :: rest).filter isEnterOther = [] := by
      rcases hrest with rfl | ⟨dir, rfl⟩ <;> rfl
    have huid : ∀ uid, .uid uid ∉ Step.ready :: rest := by
      rcases hrest with rfl | ⟨dir, rfl⟩ <;> simp
    constructor
    · rw [enteredOthers_of_steps h.steps_eq rfl rfl, enteredOthers_of_steps h'.steps_eq rfl hready]
    · rw [setsUid_of_steps h.steps_eq (by simp) (by simp),
        setsUid_of_steps h'.steps_eq (by simp) huid]

/-- A target that differs from cntr in its PID namespace only. -/
def ownPidNamespace : Namespaces where
  own := fun _ => 1
  target := fun kind => if kind = .pid then 2 else 1
  supported := fun _ => true
  targetLink := fun _ => true
  ownLink := fun _ => true

def allKinds : List Kind := [.mount, .uts, .user, .pid, .net, .cgroup, .ipc]

/-- The answers of a system without cgroups on which whatever is needed to
execute the command succeeds. -/
def willing (log : Log) : (c : Syscall) → c.Answer
  | .readDir _ => .ok (allKinds.map fun kind => .ok kind.name)
  | .namespaceLink _ _ kind | .openNamespace _ _ kind => .ok (ownPidNamespace.target kind)
  | .ownNamespaceLink kind => .ok ((membership ownPidNamespace.own log kind).getD 0)
  | .setns _ _ => .ok ()
  | .openLines _ => .ok []
  | .openFile _ _ => .ok ()
  | .nextSplit _ _ => .ok none
  | .readLink _ => .ok (ascii "/")
  | .chroot _ => .ok ()
  | .chdir _ => .ok ()
  | .createDirAll _ => .ok ()
  | .unshareMount | .makeMountsPrivate | .mountTmpfs _ => .ok ()
  | .readContainerRoot => .ok []
  | .socketpair | .sendmsg _ _ => .ok ()
  | .fork => .ok .child
  | .exec _ _ _ => .ok ()
  | c => c.refused

theorem possible_willing (log : Log) (c : Syscall) :
    Possible ownPidNamespace plainStatus.globalPid log ⟨c, willing log c⟩ := by
  cases c with
  | readDir dir =>
      intro _ kind
      cases kind <;> simp [allKinds, ownPidNamespace]
  | namespaceLink procfsPath pid kind => exact fun _ => ⟨rfl, rfl⟩
  | openNamespace procfsPath pid kind => exact fun _ => rfl
  | ownNamespaceLink kind =>
      intro ns hns
      refine ⟨rfl, ?_⟩
      rw [hns]
      rfl
  | _ => trivial

theorem exec_keepsPidNamespace :
    ∃ log, (exec ⟨none, []⟩ plainStatus).Runs (namespaced ownPidNamespace plainStatus.globalPid)
      [] (.halted .executed) log ∧ ¬Member ownPidNamespace log .pid := by
  have hplay : ((exec ⟨none, []⟩ plainStatus).replay willing 8 []).any (fun r =>
      decide (r.1 = .halted .executed) &&
        decide (membership ownPidNamespace.own r.2 .pid ≠ some (ownPidNamespace.target .pid))) =
      true := by
    decide +kernel
  obtain ⟨⟨o, log⟩, hrun, hend⟩ := (Option.any_eq_true _ _).mp hplay
  rw [Bool.and_eq_true, decide_eq_true_eq, decide_eq_true_eq] at hend
  obtain ⟨rfl, hmember⟩ := hend
  exact ⟨log, .of_play (fun log c => ⟨rfl, possible_willing log c⟩) hrun, hmember⟩

end Cntr.NamespaceMembership
