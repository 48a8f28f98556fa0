import Cntr.InheritedEnvironment

/-!
The environment in which `attach` executes a command: what the host, the container,
the effective user and the copy of the time zone contribute.
-/

namespace Cntr.OverlayEnvironment

open Cntr.ByteText
open Cntr.CallTree
open Cntr.SystemCalls
open Cntr.AttachChild
open Cntr.AttachParent
open Cntr.CallsMade
open Cntr.CommandExecution
open Cntr.ContainerSetup (ProcStatus plainStatus)
open Cntr.IdmapHelperProcess
open Cntr.InheritedEnvironment

/-- How the steps end that copy the container's `/etc/localtime`. -/
structure Timezone where
  opened : Except Errno Unit
  contents : Except IoError Bytes
  written : Except IoError Unit

/-- The base directory, on a host with these variables. -/
def baseDirOf (host : Environment) (isRoot : Bool) : Path :=
  match (host (ascii "CNTR_BASE_DIR")).filter isUtf8 with
  | some dir => dir
  | none =>
      if isRoot then defaultBaseDir
      else
        match (host (ascii "XDG_RUNTIME_DIR")).filter isUtf8 with
        | some runtimeDir => pushPath runtimeDir (ascii "cntr")
        | none =>
            match (host (ascii "HOME")).filter isUtf8 with
            | some home =>
                pushPath (pushPath (pushPath home (ascii ".local")) (ascii "share")) (ascii "cntr")
            | none => defaultBaseDir

/-- The copy, if every step succeeds. -/
def Timezone.copy (timezone : Timezone) (baseDir : Path) : Option Path :=
  match timezone.opened, timezone.contents, timezone.written with
  | .ok _, .ok _, .ok _ => some (copyPath baseDir)
  | _, _, _ => none

/-- The answers that decide on the copy. -/
def Copied (host : Environment) (isRoot : Bool) (timezone : Timezone) : Event linux → Prop
  | ⟨.geteuidIsRoot, r⟩ => r = isRoot
  | ⟨.openLocaltime, r⟩ => r = timezone.opened
  | ⟨.readToEnd .localtime, r⟩ => r = timezone.contents
  | ⟨.writePath path _, r⟩ => path = copyPath (baseDirOf host isRoot) → r = timezone.written
  | _ => True

/-- A host with an environment, a container on it, and the container's time zone. -/
abbrev attaching (container : Container) (host : Environment) (isRoot : Bool)
    (timezone : Timezone) (pid : Pid) : Kernel linux Log :=
  recording fun log ev => Given container host pid log ev ∧ Copied host isRoot timezone ev

def homeVariable : Bytes := ascii "HOME"

def tzVariable : Bytes := ascii "TZ"

/-- What a command sees. -/
def seen (host vars : Environment) (home copy : Option Path) : Environment := fun key =>
  if key = pathVariable then some ((host pathVariable).getD defaultPath)
  else if key = homeVariable then home.or ((vars homeVariable).or (host homeVariable))
  else if key = tzVariable then
    (vars tzVariable).or ((copy.map (ascii ":" ++ ·)).or (host tzVariable))
  else (vars key).or (host key)

theorem envDefault_self (cmd : Cmd) (key value : Bytes) :
    (cmd.envDefault key value).environment key = (cmd.environment key).or (some value) := by
  rw [Cmd.envDefault]
  cases h : cmd.environment key with
  | some old => exact h
  | none => exact Function.update_self _ _ _

theorem envDefault_other (cmd : Cmd) {key key' : Bytes} (value : Bytes) (hkey : key' ≠ key) :
    (cmd.envDefault key value).environment key' = cmd.environment key' := by
  rw [Cmd.envDefault]
  cases cmd.environment key with
  | some old => rfl
  | none => exact Function.update_of_ne hkey _ _

theorem envDefault_home (cmd : Cmd) (key value : Bytes) :
    (cmd.envDefault key value).home = cmd.home := by
  rw [Cmd.envDefault]
  cases cmd.environment key <;> rfl

theorem withTimezone_tz (cmd : Cmd) (copy : Option Path) :
    (withTimezone cmd copy).environment tzVariable =
      (cmd.environment tzVariable).or (copy.map (ascii ":" ++ ·)) := by
  cases copy with
  | none => exact (Option.or_none).symm
  | some path => exact envDefault_self cmd tzVariable _

theorem withTimezone_other (cmd : Cmd) (copy : Option Path) {key : Bytes}
    (hkey : key ≠ tzVariable) :
    (withTimezone cmd copy).environment key = cmd.environment key := by
  cases copy with
  | none => rfl
  | some path => exact envDefault_other cmd _ hkey

theorem withTimezone_home (cmd : Cmd) (copy : Option Path) :
    (withTimezone cmd copy).home = cmd.home := by
  cases copy with
  | none => rfl
  | some path => exact envDefault_home cmd _ _

theorem overlayEnvironment_path (cmd : Cmd) (ownPath : Option Bytes) :
    cmd.overlayEnvironment ownPath pathVariable = some (ownPath.getD defaultPath) := by
  rw [Cmd.overlayEnvironment]
  cases cmd.home with
  | none => exact Function.update_self _ _ _
  | some home =>
      have hne : pathVariable ≠ ascii "HOME" := by decide
      exact (Function.update_of_ne hne _ _).trans (Function.update_self _ _ _)

theorem overlayEnvironment_home (cmd : Cmd) (ownPath : Option Bytes) :
    cmd.overlayEnvironment ownPath homeVariable = cmd.home.or (cmd.environment homeVariable) := by
  have hne : homeVariable ≠ ascii "PATH" := by decide
  rw [Cmd.overlayEnvironment]
  cases cmd.home with
  | none => exact Function.update_of_ne hne _ _
  | some home => exact Function.update_self _ _ _

theorem overlayEnvironment_other (cmd : Cmd) (ownPath : Option Bytes) {key : Bytes}
    (hpath : key ≠ pathVariable) (hhome : key ≠ homeVariable) :
    cmd.overlayEnvironment ownPath key = cmd.environment key := by
  have hupdate := Function.update_of_ne hpath (some (ownPath.getD defaultPath)) cmd.environment
  rw [Cmd.overlayEnvironment]
  cases cmd.home with
  | none => exact hupdate
  | some home => exact (Function.update_of_ne hhome _ _).trans hupdate

/-- The overrides of `env_default` and `exec_in_overlay`, variable by variable. -/
theorem inherit_overlay (host : Environment) (cmd : Cmd) (copy : Option Path) :
    inherit host ((withTimezone cmd copy).overlayEnvironment (host pathVariable)) =
      seen host cmd.environment cmd.home copy := by
  funext key
  rw [inherit, seen]
  by_cases hpath : key = pathVariable
  · rw [if_pos hpath, hpath, overlayEnvironment_path]
    rfl
  by_cases hhome : key = homeVariable
  · have hne : homeVariable ≠ tzVariable := by decide
    rw [if_neg hpath, if_pos hhome, hhome, overlayEnvironment_home, withTimezone_home,
      withTimezone_other _ _ hne, Option.or_assoc]
  rw [overlayEnvironment_other _ _ hpath hhome, if_neg hpath, if_neg hhome]
  by_cases htz : key = tzVariable
  · rw [if_pos htz, htz, withTimezone_tz, Option.or_assoc]
  · rw [if_neg htz, withTimezone_other _ _ htz]

section Parts

variable {container : Container} {host : Environment} {isRoot : Bool} {timezone : Timezone}
  {pid : Pid} {ε ε' α β : Type} {log : Log}

theorem attaching_of_hosting {p : Sys ε α} {Q : Outcome Halt ε α → Log → Prop}
    (h : p.wp (hosting container host pid) (fun _ _ => True) Q log) :
    p.wp (attaching container host isRoot timezone pid) (fun _ _ => True) Q log :=
  Program.wp_of_fewer_answers (fun _ _ _ _ answer => ⟨answer.1, answer.2.1⟩) h

theorem envVar_gives (key : Bytes) :
    (envVar (ε := ε) key).wp (attaching container host isRoot timezone pid) (fun _ _ => True)
      (Gives fun value => value = (host key).filter isUtf8) log := by
  rw [envVar, Program.bind_eq, Program.wp_call_recording]
  refine ⟨trivial, fun r hr => ?_⟩
  have hr : r = host key := hr.1
  rw [hr]
  exact rfl

theorem userBaseDir_gives :
    (userBaseDir (ε := ε)).wp (attaching container host isRoot timezone pid) (fun _ _ => True)
      (Gives fun dir => dir = match (host (ascii "XDG_RUNTIME_DIR")).filter isUtf8 with
        | some runtimeDir => pushPath runtimeDir (ascii "cntr")
        | none =>
            match (host (ascii "HOME")).filter isUtf8 with
            | some home =>
                pushPath (pushPath (pushPath home (ascii ".local")) (ascii "share")) (ascii "cntr")
            | none => defaultBaseDir) log := by
  refine gives_bind (envVar_gives _) fun runtimeDir log₁ hruntime => ?_
  rw [hruntime]
  cases (host (ascii "XDG_RUNTIME_DIR")).filter isUtf8 with
  | some runtimeDir => exact rfl
  | none =>
      refine gives_bind (envVar_gives _) fun home log₂ hhome => ?_
      rw [hhome]
      cases (host (ascii "HOME")).filter isUtf8 with
      | some home => exact rfl
      | none => exact rfl

theorem getBaseDir_gives :
    (getBaseDir (ε := ε)).wp (attaching container host isRoot timezone pid) (fun _ _ => True)
      (Gives fun dir => dir = baseDirOf host isRoot) log := by
  refine gives_bind (envVar_gives _) fun dir log₁ hdir => ?_
  rw [hdir, baseDirOf]
  cases (host (ascii "CNTR_BASE_DIR")).filter isUtf8 with
  | some dir => exact rfl
  | none =>
      simp only [Program.bind_eq, Program.wp_call_recording]
      refine ⟨trivial, fun r hr => ?_⟩
      have hr : r = isRoot := hr.2
      rw [hr]
      cases isRoot with
      | true => exact rfl
      | false => exact userBaseDir_gives

theorem setupContainerTimezone_gives :
    (setupContainerTimezone (baseDirOf host isRoot)).wp
      (attaching container host isRoot timezone pid) (fun _ _ => True)
      (Gives fun copy => copy = timezone.copy (baseDirOf host isRoot)) log := by
  obtain ⟨opened, contents, written⟩ := timezone
  rw [setupContainerTimezone, Program.bind_eq, Program.wp_call_recording]
  refine ⟨trivial, fun r hr => ?_⟩
  have hr : r = opened := hr.2
  rw [hr]
  cases opened with
  | error e => exact rfl
  | ok _ =>
      simp only [Program.bind_eq, Program.wp_call_recording]
      refine ⟨trivial, fun r hr => ?_⟩
      have hr : r = contents := hr.2
      rw [hr]
      cases contents with
      | error e => exact rfl
      | ok contents =>
          simp only [Program.wp_call_recording]
          refine ⟨trivial, fun r hr => ?_⟩
          have hr : r = written := hr.2 rfl
          rw [hr]
          cases written with
          | error e => exact rfl
          | ok _ => exact ⟨trivial, fun _ _ _ => rfl⟩

/-- Any calls, but no execution. -/
abbrev Unexecuted (p : Sys ε α) : Prop := p.Within (fun _ => True) fun h => h ≠ .executed

theorem unexecuted_of {calls : Syscall → Prop} {p : Sys ε α}
    (hp : p.Within calls fun h => h ≠ .executed) : Unexecuted p :=
  hp.mono (fun _ _ => trivial) fun _ h => h

theorem captureAndAttach_unexecuted (containerPid : Pid) (ourMountNs : NamespaceFiles.Namespace)
    (baseDir : Path) :
    Unexecuted (captureAndAttachContainerTrees containerPid ourMountNs baseDir) := by
  have happly : ∀ ns : NamespaceFiles.Namespace,
      Unexecuted (ns.apply.mapError AttachError.namespaceFailed) := fun ns =>
    (unexecuted_of (apply_enters ns)).mapError
  have hattach : ∀ captured, Unexecuted (attachCaptured baseDir captured) := fun captured =>
    unexecuted_of (attachCaptured_quiet baseDir captured)
  refine (unexecuted_of (openKind_still _ _)).mapError.bind fun containerMountNs => ?_
  refine (happly containerMountNs).bind fun _ => .check trivial fun dir => ?_
  refine (unexecuted_of (captureTrees_quiet _)).bind fun trees => ?_
  exact (happly ourMountNs).bind fun _ => .forEach hattach trees

theorem gives_check {P : α → Prop} {c : Syscall} {f : ε' → ε} {g : c.Answer → Except ε' Unit}
    {k : Unit → Sys ε α}
    (hk : ∀ log, (k ()).wp (attaching container host isRoot timezone pid) (fun _ _ => True)
      (Gives P) log) :
    ((sys c).bind fun r => (Program.ofExcept f (g r)).bind k).wp
      (attaching container host isRoot timezone pid) (fun _ _ => True) (Gives P) log := by
  refine ⟨trivial, fun r log' _ => ?_⟩
  show ((Program.ofExcept f (g r)).bind k).wp _ _ _ _
  cases g r with
  | error e => trivial
  | ok _ => exact hk log'

theorem assembleHierarchy_gives (options : ChildOptions) :
    (assembleHierarchy options (baseDirOf host isRoot)).wp
      (attaching container host isRoot timezone pid) (fun _ _ => True)
      (Gives fun copy => copy = timezone.copy (baseDirOf host isRoot)) log := by
  refine gives_check (c := .createDirAll _) (g := id) fun _ => ?_
  refine gives_check (c := .openFile _ .read) (g := id) fun _ => ?_
  refine gives_check (c := .unshareMount) (g := id) fun _ => ?_
  refine gives_check (c := .makeMountsPrivate) (g := id) fun _ => ?_
  refine gives_bind (gives_within (idmapMounts_quiet _ _)) fun _ log₁ _ => ?_
  refine ⟨trivial, fun ownPid log₂ _ => ?_⟩
  show (((NamespaceFiles.openKind _ _).mapError _).bind _).wp _ _ _ _
  refine gives_bind (gives_mapError (gives_within (openKind_still _ _)))
    fun ourMountNs log₃ _ => ?_
  refine gives_check (c := .mountTmpfs _) (g := id) fun _ => ?_
  refine gives_bind setupContainerTimezone_gives fun copy log₄ hcopy => ?_
  refine gives_bind (gives_within (captureAndAttach_unexecuted _ _ _)) fun _ log₅ _ => ?_
  exact hcopy

theorem enterAndExecute_executes (options : ChildOptions) (baseDir : Path) {cmd : Cmd}
    {copy : Option Path} (otherNamespaces : List NamespaceFiles.Namespace) :
    (enterAndExecute options baseDir (withTimezone cmd copy) otherNamespaces).wp
      (attaching container host isRoot timezone pid) (fun _ _ => True)
      (Executes ((withTimezone cmd copy).overlayEnvironment (host pathVariable))) log := by
  have hsend : ∀ ptyMaster, Unexecuted (sendReady ptyMaster) := fun ptyMaster =>
    Program.Within.mapError (p := ReadySocket.send _ _)
      ⟨trivial, fun r => (Program.within_ofExcept _ r).mpr trivial⟩
  refine executes_bind (gives_mapError (gives_within (applyAll_enters otherNamespaces)))
    fun _ log₁ _ => ?_
  refine executes_bind (gives_within setupPty_quiet) fun ptyMaster log₂ _ => ?_
  refine executes_bind (gives_mapError (gives_within
    (applySecurityContext_enters (fun h => by cases h) _ _))) fun _ log₃ _ => ?_
  refine executes_bind (gives_within (hsend ptyMaster)) fun _ log₄ _ => ?_
  refine ⟨trivial, fun _ log₅ _ => ?_⟩
  show ((inheritProfile _).bind _).wp _ _ _ _
  refine executes_bind (gives_within (inheritProfile_adopts _)) fun _ log₆ _ => ?_
  refine Program.wp_onHalt_mapError ?_
  rw [Cmd.execInOverlay, Program.bind_eq, Program.wp_call_recording]
  refine ⟨trivial, fun r hr => ?_⟩
  have hr : r = host pathVariable := hr.1
  rw [hr]
  exact attaching_of_hosting (execute_executes _ _)

/-- A part of the program that may execute the command, which then sees `env`. -/
abbrev Sees (host env : Environment) : Outcome Halt ε α → Log → Prop :=
  OnHalt .executed (Ran host env)

theorem sees_bind {K : Kernel linux Log} {env : Environment} {P : α → Prop} {p : Sys ε α}
    {f : α → Sys ε β} (hp : p.wp K (fun _ _ => True) (Gives P) log)
    (hf : ∀ a log', P a → (f a).wp K (fun _ _ => True) (Sees host env) log') :
    (p.bind f).wp K (fun _ _ => True) (Sees host env) log :=
  Program.wp_onHalt_bind hp (fun _ hne => hne rfl) hf

theorem attachRun_sees (options : ChildOptions) :
    (AttachChild.run options).wp
      (attaching container host isRoot timezone options.processStatus.globalPid)
      (fun _ _ => True) (Sees host (seen host container.vars options.effectiveHome
        (timezone.copy (baseDirOf host isRoot)))) log := by
  refine ⟨trivial, fun ownPid log₁ _ => ?_⟩
  show (((CgroupManagers.moveTo _ _).mapError _).bind _).wp _ _ _ _
  refine sees_bind (gives_mapError (gives_within (moveTo_still _ _))) fun _ log₂ _ => ?_
  refine sees_bind (gives_mapError (attaching_of_hosting (cmdNew_gives _ _ _)))
    fun cmd log₃ hcmd => ?_
  refine sees_bind (gives_mapError (gives_within supportedNamespaces_still))
    fun supported log₄ _ => ?_
  split
  · exact fun heq => nomatch heq
  · refine sees_bind (gives_within (attachOpenOthers_still _ _ _ _)) fun others log₅ _ => ?_
    refine sees_bind getBaseDir_gives fun baseDir log₆ hdir => ?_
    rw [hdir]
    refine sees_bind (assembleHierarchy_gives options) fun copy log₇ hcopy => ?_
    refine Program.wp_post (enterAndExecute_executes options _ others) fun o log₈ ho heq => ?_
    refine ⟨_, ho heq, ?_⟩
    rw [inherit_overlay, hcmd.1, hcmd.2.2, hcopy]

theorem createHelper_unexecuted (user : Option User) : Unexecuted (createHelper user) := by
  cases user with
  | none => trivial
  | some user =>
      have hnew : ∀ mapping, Unexecuted (IdmapHelper.new mapping) := by
        intro mapping
        refine .check trivial fun ends => .check trivial fun fork => ?_
        cases fork with
        | parentOf child => exact unexecuted_of (awaitHelper_quiet _ _ _)
        | child =>
            refine (unexecuted_of (helperProcess_within (fun h => by cases h) _ _ _)).bind ?_
            exact fun never => nomatch never
      exact ⟨trivial, fun uid => ⟨trivial, fun gid => (hnew _).mapError.bind fun _ => trivial⟩⟩

theorem attachWithHelper_sees (options : ChildOptions) :
    (attachWithHelper options).wp
      (attaching container host isRoot timezone options.processStatus.globalPid)
      (fun _ _ => True) (Sees host (seen host container.vars options.effectiveHome
        (timezone.copy (baseDirOf host isRoot)))) log := by
  have hpair : Unexecuted (ReadySocket.socketPair.mapError AttachError.ipc) :=
    Program.Within.mapError ⟨trivial, fun r => (Program.within_ofExcept _ r).mpr trivial⟩
  refine sees_bind (gives_within hpair) fun _ log₁ _ => ⟨trivial, ?_⟩
  rintro (e | _ | childPid) log₂ -
  · exact fun heq => nomatch heq
  · refine ⟨trivial, fun _ log₃ _ => ?_⟩
    exact Program.wp_onHalt_attempt (attachRun_sees options) fun _ _ heq => nomatch heq
  · exact (attachParentBranch_supervises childPid).wp_onHalt

theorem attach_sees (opts : AttachOptions) (processStatus : ProcStatus) :
    (attach opts processStatus).wp
      (attaching container host isRoot timezone processStatus.globalPid) (fun _ _ => True)
      (Sees host (seen host container.vars (opts.effectiveUser.map User.dir)
        (timezone.copy (baseDirOf host isRoot)))) log := by
  refine sees_bind (gives_within (createHelper_unexecuted opts.effectiveUser))
    fun idmapHelper log₁ _ => ?_
  have hdrop : ∀ res : Except AttachError Empty, ((AttachParent.dropHelper idmapHelper).bind
      fun _ => Program.ofExcept id res).Within Still fun h => h ≠ .executed := fun res =>
    (dropHelper_still idmapHelper).bind fun _ => (Program.within_ofExcept _ res).mpr trivial
  have hattached : (attachWithHelper (childOptions opts processStatus idmapHelper)).wp
      (attaching container host isRoot timezone processStatus.globalPid) (fun _ _ => True)
      (Sees host (seen host container.vars (opts.effectiveUser.map User.dir)
        (timezone.copy (baseDirOf host isRoot)))) log₁ :=
    attachWithHelper_sees (childOptions opts processStatus idmapHelper)
  exact Program.wp_onHalt_attempt hattached fun res _ => (hdrop res).wp_onHalt

end Parts

/-- The command that `attach` executes sees, for each variable, what `seen` says. -/
theorem attach_ran {container : Container} {host : Environment} {isRoot : Bool}
    {timezone : Timezone} {opts : AttachOptions} {processStatus : ProcStatus} {log : Log}
    (run : (attach opts processStatus).Runs
      (attaching container host isRoot timezone processStatus.globalPid) []
      (.halted .executed) log) :
    Ran host (seen host container.vars (opts.effectiveUser.map User.dir)
      (timezone.copy (baseDirOf host isRoot))) log :=
  run.of_wp (attach_sees opts processStatus) rfl

/-- The container has a time zone, and its copy is made. -/
def copied : Timezone where
  opened := .ok ()
  contents := .ok []
  written := .ok ()

/-- The answers of a system on which whatever is needed to attach succeeds. -/
def attached (host : Environment) (log : Log) : (c : Syscall) → c.Answer
  | .openLocaltime => .ok ()
  | .readToEnd .localtime => .ok []
  | .writePath _ _ => .ok ()
  | c => hosted host log c

theorem possible_attached (host : Environment) (log : Log) (c : Syscall) :
    Given plainContainer host plainStatus.globalPid log ⟨c, attached host log c⟩ ∧
      Copied host false copied ⟨c, attached host log c⟩ := by
  constructor
  · cases c with
    | readToEnd file => cases file <;> trivial
    | getenv key => exact rfl
    | nextSplit file delimiter => exact given_hosted host log (.nextSplit file delimiter)
    | readLink path => exact fun _ => rfl
    | readToString path => exact fun _ => rfl
    | _ => trivial
  · cases c with
    | readToEnd file => cases file <;> trivial
    | geteuidIsRoot => exact rfl
    | openLocaltime => exact rfl
    | writePath path contents => exact fun _ => rfl
    | _ => trivial

def utcHost : Environment := hostWith tzVariable (some (ascii "UTC"))

/-- The copy of the container's time zone goes before the time zone of the host. -/
theorem attach_ran_copied :
    ∃ log, (attach ⟨none, [], none⟩ plainStatus).Runs
        (attaching plainContainer utcHost false copied plainStatus.globalPid) []
        (.halted .executed) log ∧
      Ran utcHost (seen utcHost plainContainer.vars none
        (copied.copy (baseDirOf utcHost false))) log ∧
      seen utcHost plainContainer.vars none (copied.copy (baseDirOf utcHost false)) tzVariable =
        some (ascii ":/var/lib/cntr/.localtime") := by
  have hplay : ((attach ⟨none, [], none⟩ plainStatus).replay (attached utcHost) 8 []).any
      (fun r => decide (r.1 = .halted .executed)) = true := by
    decide +kernel
  obtain ⟨⟨o, log⟩, hrun, hend⟩ := (Option.any_eq_true _ _).mp hplay
  obtain rfl := of_decide_eq_true hend
  have run : (attach ⟨none, [], none⟩ plainStatus).Runs
      (attaching plainContainer utcHost false copied plainStatus.globalPid) []
      (.halted .executed) log :=
    .of_play (fun log c => ⟨rfl, possible_attached utcHost log c⟩) hrun
  exact ⟨log, run, attach_ran run, by decide +kernel⟩

end Cntr.OverlayEnvironment
