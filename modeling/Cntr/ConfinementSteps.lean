import Cntr.CallsMade

/-!
The steps that confine a process, read off its calls, against a kernel that
gives each process one namespace of every kind. What the functions shared by
`exec` and `attach` add to the steps taken so far.
-/

namespace Cntr.ConfinementSteps

open Cntr.ByteText
open Cntr.CallTree
open Cntr.SystemCalls
open Cntr.ApparmorProfile
open Cntr.CallsMade
open Cntr.ContainerSetup
open Cntr.NamespaceFiles
open Cntr.WholeWrites

inductive Step where
  | enter (kind : Kind) (ns : NsId)
  | leave (kind : Kind)
  | gid (gid : Nat)
  | uid (uid : Nat)
  | chroot (path : Path)
  | chdir (path : Path)
  | ready
  deriving DecidableEq

def stepOf : Event linux → Option Step
  | ⟨.setns kind ns, .ok _⟩ => some (.enter kind ns)
  | ⟨.unshareMount, .ok _⟩ => some (.leave .mount)
  | ⟨.unshareUser, .ok _⟩ => some (.leave .user)
  | ⟨.setThreadGid gid, .ok _⟩ => some (.gid gid)
  | ⟨.setThreadUid uid, .ok _⟩ => some (.uid uid)
  | ⟨.chroot path, .ok _⟩ => some (.chroot path)
  | ⟨.chdir path, .ok _⟩ => some (.chdir path)
  | ⟨.sendmsg _ _, .ok _⟩ => some .ready
  | _ => none

def steps (log : Log) : List Step := log.filterMap stepOf

/-- The namespaces a process is a member of; `none` stands for one of its own
making. -/
abbrev Membership := Kind → Option NsId

/-- `setns` changes the membership of the caller, except that of the PID kind,
where it is only the children to come whose namespace changes. -/
def move (member : Membership) : Step → Membership
  | .enter .pid _ => member
  | .enter kind ns => Function.update member kind (some ns)
  | .leave kind => Function.update member kind none
  | _ => member

def membership (own : Kind → NsId) (log : Log) : Membership :=
  (steps log).foldl move fun kind => some (own kind)

/-- The namespaces of the process at its start and of the target, the kinds that
the kernel has, and the links to them that can be read. -/
structure Namespaces where
  own : Kind → NsId
  target : Kind → NsId
  supported : Kind → Bool
  targetLink : Kind → Bool
  ownLink : Kind → Bool

/-- An answer to `readlink` that names the namespace `ns`. -/
def LinkAnswer (readable : Bool) (ns : NsId) : Except IoError NsId → Prop
  | .ok id => readable = true ∧ id = ns
  | .error _ => readable = false

/-- The answers of a kernel on which the namespaces are as given. -/
def Possible (nss : Namespaces) (targetPid : Pid) (log : Log) : Event linux → Prop
  | ⟨.readDir dir, .ok entries⟩ =>
      dir = namespaceDir → ∀ kind, .ok kind.name ∈ entries ↔ nss.supported kind = true
  | ⟨.namespaceLink _ pid kind, r⟩ =>
      pid = targetPid → LinkAnswer (nss.targetLink kind) (nss.target kind) r
  | ⟨.ownNamespaceLink kind, r⟩ =>
      ∀ ns, membership nss.own log kind = some ns → LinkAnswer (nss.ownLink kind) ns r
  | ⟨.openNamespace _ pid kind, .ok id⟩ => pid = targetPid → id = nss.target kind
  | _ => True

/-- The kernel on which any call may fail at any time. -/
abbrev namespaced (nss : Namespaces) (targetPid : Pid) : Kernel linux Log :=
  recording (Possible nss targetPid)

/-- The links show that the process shares the namespace with the target. -/
def Namespaces.same (nss : Namespaces) (kind : Kind) : Bool :=
  nss.targetLink kind && nss.ownLink kind && decide (nss.target kind = nss.own kind)

def Namespaces.enters (nss : Namespaces) (kind : Kind) : Bool :=
  nss.supported kind && !nss.same kind

def Namespaces.opened (nss : Namespaces) (kinds : List Kind) : List Namespace :=
  (kinds.filter nss.enters).map fun kind => ⟨kind, nss.target kind⟩

def enterStep (ns : Namespace) : Step := .enter ns.kind ns.file

def identitySteps (processStatus : ProcStatus) (inUserNamespace : Bool) : List Step :=
  if inUserNamespace then [.gid processStatus.gid, .uid processStatus.uid] else []

/-- A step that failed; going to a directory is only one of `exec`. -/
def FailedStep (inExec : Bool) : Event linux → Prop
  | ⟨.setns _ _, .error _⟩ | ⟨.setThreadGid _, .error _⟩ | ⟨.setThreadUid _, .error _⟩ => True
  | ⟨.chroot _, .error _⟩ | ⟨.openFile _ .write, .error _⟩ => True
  | ⟨.chdir _, .error _⟩ => inExec = true
  | ⟨.write (.atPath path .write) bytes, r⟩ => WriteFailed ⟨.write (.atPath path .write) bytes, r⟩
  | _ => False

def IsExec : Event linux → Prop
  | ⟨.exec _ _ _, _⟩ => True
  | _ => False

def requested (profile : Option LSMProfile) (path : Path) : Bytes :=
  match profile with
  | some profile => if path = profile.ownPath then changeProfile profile.label else []
  | none => []

/-- The process took the steps `taken` and asked for the profile, and nothing
failed that must not fail. -/
structure Reached (inExec : Bool) (taken : List Step) (profile : Option LSMProfile)
    (log : Log) : Prop where
  steps_eq : steps log = taken
  calm : ∀ ev ∈ log, ¬FailedStep inExec ev
  unexecuted : ∀ ev ∈ log, ¬IsExec ev
  written : ∀ path, writtenTo (.atPath path .write) log = requested profile path

/-- The postcondition of a part of the program that is left with `P`; a failed
step ends it with an error. -/
def Reaches {ε α : Type} (inExec : Bool) (P : α → Log → Prop) :
    Outcome Halt ε α → Log → Prop
  | .value a, log => P a log
  | .error _, log => (∀ ev ∈ log, ¬FailedStep inExec ev) ∨ ∀ ev ∈ log, ¬IsExec ev
  | .halted _, log => ∀ ev ∈ log, ¬FailedStep inExec ev

/-- No step has failed, and the call is one that `G` allows. -/
def Unfailed (inExec : Bool) (G : Log → Syscall → Prop) (log : Log) (c : Syscall) : Prop :=
  (∀ ev ∈ log, ¬FailedStep inExec ev) ∧ G log c

/-- The calls that others see. -/
def Announces : Syscall → Prop
  | .sendmsg _ _ | .exec _ _ _ => True
  | _ => False

/-- Whatever others do not see is allowed until a step fails. -/
def Allows (inExec : Bool) (G : Log → Syscall → Prop) : Prop :=
  ∀ log c, (∀ ev ∈ log, ¬FailedStep inExec ev) → ¬Announces c → G log c

theorem steps_append (log log' : Log) : steps (log ++ log') = steps log ++ steps log' :=
  List.filterMap_append

theorem stepOf_of_quiet {ev : Event linux} (h : Quiet ev.1) : stepOf ev = none := by
  rcases ev with ⟨c, r⟩
  cases c <;> first | rfl | exact h.elim

theorem not_failedStep_of_quiet {inExec : Bool} {ev : Event linux} (h : Quiet ev.1) :
    ¬FailedStep inExec ev := by
  rcases ev with ⟨c, r⟩
  cases c with
  | openFile path mode =>
      cases mode with
      | write => exact absurd rfl h
      | _ => exact id
  | write file bytes =>
      cases file with
      | atPath path mode =>
          cases mode with
          | write => exact absurd rfl h
          | _ => exact id
      | _ => exact id
  | _ => first | exact id | exact h.elim

theorem not_isExec_of_quiet {ev : Event linux} (h : Quiet ev.1) : ¬IsExec ev := by
  rcases ev with ⟨c, r⟩
  cases c with
  | exec => exact h.elim
  | _ => exact id

theorem writtenBy_of_quiet {ev : Event linux} (h : Quiet ev.1) (path : Path) :
    writtenBy (.atPath path .write) ev = [] := by
  rcases ev with ⟨c, r⟩
  cases c with
  | write file bytes =>
      cases r with
      | error e => rfl
      | ok written =>
          have hne : file ≠ .atPath path .write := by
            rintro rfl
            exact h rfl
          simp [writtenBy, hne]
  | _ => rfl

section Reached

variable {inExec : Bool} {taken : List Step} {profile : Option LSMProfile} {log : Log}

theorem reached_nil : Reached inExec [] none [] where
  steps_eq := rfl
  calm := by simp
  unexecuted := by simp
  written := fun _ => rfl

theorem Reached.snoc (h : Reached inExec taken profile log) (ev : Event linux)
    (hcalm : ¬FailedStep inExec ev) (hexec : ¬IsExec ev)
    (hwritten : ∀ path, writtenBy (.atPath path .write) ev = []) :
    Reached inExec (taken ++ (stepOf ev).toList) profile (log ++ [ev]) where
  steps_eq := by
    rw [steps_append, h.steps_eq]
    cases hstep : stepOf ev <;> simp [steps, hstep]
  calm := by
    intro ev' hmem
    rcases List.mem_append.mp hmem with hmem | hmem
    · exact h.calm ev' hmem
    · rwa [List.mem_singleton.mp hmem]
  unexecuted := by
    intro ev' hmem
    rcases List.mem_append.mp hmem with hmem | hmem
    · exact h.unexecuted ev' hmem
    · rwa [List.mem_singleton.mp hmem]
  written := by
    intro path
    rw [writtenTo_append, writtenTo_singleton, hwritten, List.append_nil]
    exact h.written path

theorem Reached.quiet (h : Reached inExec taken profile log) (c : Syscall) (r : c.Answer)
    (hc : Quiet c) : Reached inExec taken profile (log ++ [⟨c, r⟩]) := by
  have hev : Quiet (⟨c, r⟩ : Event linux).1 := hc
  have hnext := h.snoc ⟨c, r⟩ (not_failedStep_of_quiet hev) (not_isExec_of_quiet hev)
    (writtenBy_of_quiet hev)
  rwa [stepOf_of_quiet hev, Option.toList_none, List.append_nil] at hnext

/-- A step may fail as long as the command is not executed after it. -/
theorem Reached.failed {ε α : Type} {P : α → Log → Prop}
    (h : Reached inExec taken profile log) {ev : Event linux} (hexec : ¬IsExec ev) (e : ε) :
    Reaches inExec P (.error e : Outcome Halt ε α) (log ++ [ev]) := by
  refine .inr fun ev' hmem => ?_
  rcases List.mem_append.mp hmem with hmem | hmem
  · exact h.unexecuted ev' hmem
  · rwa [List.mem_singleton.mp hmem]

theorem Reached.reaches {ε α : Type} {P : α → Log → Prop} (h : Reached inExec taken profile log)
    {o : Outcome Halt ε α} (hvalue : ∀ a, o = .value a → P a log) : Reaches inExec P o log := by
  cases o with
  | value a => exact hvalue a rfl
  | error e => exact .inl h.calm
  | halted e => exact h.calm

end Reached

end Cntr.ConfinementSteps
