import Cntr.NamespaceMembership

/-!
The environment in which `exec` executes a command, for a given environment of
cntr itself.
-/

namespace Cntr.InheritedEnvironment

open Cntr.ByteText
open Cntr.CallTree
open Cntr.SystemCalls
open Cntr.CallsMade
open Cntr.CommandExecution
open Cntr.ContainerSetup
open Cntr.ExecCommand
open Cntr.NamespaceMembership (willing)
open Cntr.WholeWrites

def pathVariable : Bytes := ascii "PATH"

/-- What a container has to say about environments. -/
structure Container where
  environ : List Bytes
  root : Path
  etcEnvironment : Except IoError Bytes

namespace Container

def vars (container : Container) : Environment :=
  container.environ.foldl insertVariable fun _ => none

/-- `PATH` in `/etc/environment`. -/
def etcPath (container : Container) : Option Bytes :=
  match container.etcEnvironment with
  | .error _ => none
  | .ok contents =>
      if isUtf8 contents then (linesOf contents).findSome? pathInLine else none

/-- The environment of the target process, with a `PATH` if it has none. -/
def environment (container : Container) : Environment :=
  match container.vars pathVariable with
  | some _ => container.vars
  | none =>
      Function.update container.vars pathVariable
        (some (container.etcPath.getD defaultPath))

theorem environment_path (container : Container) :
    container.environment pathVariable ≠ none := by
  rw [environment]
  cases h : container.vars pathVariable with
  | some value => simp [h]
  | none => simp

theorem environment_other (container : Container) {key : Bytes} (hkey : key ≠ pathVariable) :
    container.environment key = container.vars key := by
  rw [environment]
  cases container.vars pathVariable with
  | some value => rfl
  | none => exact Function.update_of_ne hkey _ _

end Container

def environPath (host : Environment) (pid : Pid) : Path :=
  pushPath (pushPath (Procfs.pathFrom (host (ascii "CNTR_PROC"))) pid.text) (ascii "environ")

/-- How many parts were read of a file since it was opened. -/
def advance (path : Path) (position : Nat) (ev : Event linux) : Nat :=
  match ev.1 with
  | .openFile path' _ => if path' = path then 0 else position
  | .nextSplit (.atPath path' _) _ => if path' = path then position + 1 else position
  | _ => position

def position (path : Path) (log : Log) : Nat := log.foldl (advance path) 0

theorem position_snoc (path : Path) (log : Log) (ev : Event linux) :
    position path (log ++ [ev]) = advance path (position path log) ev := by
  rw [position, List.foldl_append]
  rfl

/-- The answers in which the container and the environment of cntr show. -/
def Given (container : Container) (host : Environment) (pid : Pid) (log : Log) :
    Event linux → Prop
  | ⟨.getenv key, r⟩ => r = host key
  | ⟨.nextSplit (.atPath path _) _, r⟩ =>
      path = environPath host pid → r = .ok container.environ[position path log]?
  | ⟨.readLink path, r⟩ => path = procRootPath pid → r = .ok container.root
  | ⟨.readToString path, r⟩ =>
      path = pushPath container.root (ascii "etc/environment") → r = container.etcEnvironment
  | _ => True

/-- A host with an environment, and a container on it. -/
abbrev hosting (container : Container) (host : Environment) (pid : Pid) : Kernel linux Log :=
  recording (Given container host pid)

/-- The environment of a command: its own variables over the inherited ones. -/
def inherit (host envs : Environment) : Environment := fun key => (envs key).or (host key)

/-- The run ended with a command that was given these variables. -/
def Executed (envs : Environment) (log : Log) : Prop :=
  ∃ before command arguments, log = before ++ [⟨.exec command arguments envs, .ok ()⟩]

/-- A part of the program that hands on what satisfies `P` and executes nothing. -/
def Gives {ε α : Type} (P : α → Prop) : Outcome Halt ε α → Log → Prop
  | .value a, _ => P a
  | .error _, _ => True
  | .halted h, _ => h ≠ .executed

/-- A part of the program that may execute the command. -/
def Executes {ε α : Type} (envs : Environment) (o : Outcome Halt ε α) (log : Log) : Prop :=
  o = .halted .executed → Executed envs log

section Parts

variable {container : Container} {host : Environment} {pid : Pid} {ε ε' α β : Type}
  {envs : Environment} {log : Log} {K : Kernel linux Log}

theorem gives_bind {P : α → Prop} {Q : β → Prop} {p : Sys ε α} {f : α → Sys ε β}
    (hp : p.wp K (fun _ _ => True) (Gives P) log)
    (hf : ∀ a log', P a →
      (f a).wp K (fun _ _ => True) (Gives Q) log') :
    (p.bind f).wp K (fun _ _ => True) (Gives Q) log := by
  refine Program.wp_seq hp fun o log' ho => ?_
  cases o with
  | value a => exact hf a log' ho
  | error e => trivial
  | halted h => exact ho

theorem executes_bind {P : α → Prop} {p : Sys ε α} {f : α → Sys ε β}
    (hp : p.wp K (fun _ _ => True) (Gives P) log)
    (hf : ∀ a log', P a →
      (f a).wp K (fun _ _ => True) (Executes envs) log') :
    (p.bind f).wp K (fun _ _ => True) (Executes envs) log :=
  Program.wp_onHalt_bind hp (fun _ hne => hne rfl) hf

theorem gives_mapError {P : α → Prop} {f : ε → ε'} {p : Sys ε α}
    (hp : p.wp K (fun _ _ => True) (Gives P) log) :
    (p.mapError f).wp K (fun _ _ => True) (Gives P) log := by
  rw [Program.wp_mapError]
  refine Program.wp_post hp fun o log' ho => ?_
  cases o with
  | value a => exact ho
  | error e => trivial
  | halted h => exact ho

theorem gives_within {calls : Syscall → Prop} {p : Sys ε α}
    (hp : p.Within calls fun h => h ≠ .executed) :
    p.wp K (fun _ _ => True) (Gives fun _ => True) log := by
  refine Program.wp_post
    (hp.wp (I := fun _ => True) (fun _ _ _ _ => trivial) (fun _ _ _ _ _ _ _ => trivial) trivial)
    fun o log' ho => ?_
  cases o with
  | value a => trivial
  | error e => trivial
  | halted h => exact ho.2 h rfl

theorem getPath_gives :
    (Procfs.getPath (ε := ε)).wp (hosting container host pid) (fun _ _ => True)
      (Gives fun path => path = Procfs.pathFrom (host (ascii "CNTR_PROC"))) log := by
  rw [Procfs.getPath, Program.bind_eq, Program.wp_call_recording]
  refine ⟨trivial, fun r hr => ?_⟩
  have hr : r = host (ascii "CNTR_PROC") := hr
  rw [hr]
  cases host (ascii "CNTR_PROC") with
  | none => exact rfl
  | some path => exact rfl

/-- The host hands out the entries of the container's environment one by one. -/
theorem yieldsParts_hosting :
    YieldsParts (hosting container host pid) (.atPath (environPath host pid) .read)
      container.environ (position (environPath host pid)) := by
  rintro log r _ ⟨rfl, hr⟩
  refine ⟨hr rfl, ?_⟩
  rw [position_snoc, advance]
  exact if_pos rfl

theorem readEnvironment_gives :
    (readEnvironment pid).wp (hosting container host pid) (fun _ _ => True)
      (Gives fun vars => vars = container.vars) log := by
  refine gives_bind getPath_gives fun procfsPath log₁ hprocfs => ?_
  rw [Program.bind_eq, Program.wp_call_recording]
  refine ⟨trivial, ?_⟩
  rintro (e | _) -
  · trivial
  have hpath : pushPath (pushPath procfsPath pid.text) (ascii "environ") =
      environPath host pid := by
    rw [hprocfs, environPath]
  rw [hpath]
  have hstart : position (environPath host pid)
      (log₁ ++ [⟨.openFile (environPath host pid) .read, .ok ()⟩]) = 0 := by
    rw [position_snoc, advance]
    exact if_pos rfl
  refine Program.wp_post (environmentLoop_wp yieldsParts_hosting hstart) fun o log' ho => ?_
  rw [ho]
  exact rfl

theorem cmdNew_gives (command : Option Bytes) (args : List Bytes) (home : Option Path) :
    (Cmd.new command args pid home).wp (hosting container host pid) (fun _ _ => True)
      (Gives fun cmd => cmd.environment = container.vars ∧
        cmd.containerRoot = container.root ∧ cmd.home = home) log := by
  refine gives_bind (gives_within (commandOrShell_still command)) fun command log₁ _ => ?_
  refine gives_bind readEnvironment_gives fun vars log₂ hvars => ?_
  rw [Program.bind_eq, Program.wp_call_recording]
  refine ⟨trivial, fun r hr => ?_⟩
  have hr : r = .ok container.root := hr rfl
  rw [hr]
  exact ⟨hvars, rfl, rfl⟩

theorem containerEnvironment_gives {cmd : Cmd} (hvars : cmd.environment = container.vars)
    (hroot : cmd.containerRoot = container.root) :
    cmd.containerEnvironment.wp (hosting container host pid) (fun _ _ => True)
      (Gives fun environment => environment = container.environment) log := by
  rw [Cmd.containerEnvironment, hvars, Container.environment, ← pathVariable]
  cases container.vars pathVariable with
  | some value => exact rfl
  | none =>
      have hread : (readContainerPath cmd.containerRoot).wp (hosting container host pid)
          (fun _ _ => True) (Gives fun path => path = container.etcPath) log := by
        rw [readContainerPath, hroot, Program.bind_eq, Program.wp_call_recording]
        refine ⟨trivial, fun r hr => ?_⟩
        have hr : r = container.etcEnvironment := hr rfl
        rw [hr, Container.etcPath]
        cases container.etcEnvironment with
        | error e => exact rfl
        | ok contents => exact rfl
      refine gives_bind hread fun path log₁ hpath => ?_
      rw [hpath]
      exact rfl

theorem execute_executes (cmd : Cmd) (environment : Environment) :
    (execute cmd environment).wp (hosting container host pid) (fun _ _ => True)
      (Executes environment) log := by
  rw [execute, Program.bind_eq, Program.wp_call_recording]
  refine ⟨trivial, ?_⟩
  rintro (e | _) -
  · intro h
    cases h
  · exact fun _ => ⟨log, _, _, rfl⟩

theorem execInContainer_executes {cmd : Cmd} (hvars : cmd.environment = container.vars)
    (hroot : cmd.containerRoot = container.root)
    (lsmProfile : Option ApparmorProfile.LSMProfile) :
    (cmd.execInContainer lsmProfile).wp (hosting container host pid) (fun _ _ => True)
      (Executes container.environment) log := by
  refine executes_bind (containerEnvironment_gives hvars hroot) fun environment log₁ henv => ?_
  rw [henv]
  refine executes_bind (gives_mapError (gives_within (preExec_adopts _ _))) fun _ log₂ _ => ?_
  exact execute_executes cmd container.environment

theorem execChild_executes {processStatus : ProcStatus} (exe : Option Bytes)
    (args : List Bytes) (ptyMaster : Option Fd) :
    (execChild processStatus exe args ptyMaster).wp
      (hosting container host processStatus.globalPid) (fun _ _ => True)
      (Executes container.environment) log := by
  obtain ⟨command, hcommand⟩ : ∃ command, exe.or (some (ascii "/bin/sh")) = some command := by
    cases exe with
    | none => exact ⟨_, rfl⟩
    | some command => exact ⟨command, rfl⟩
  refine executes_bind (gives_within (attachPtySlave_quiet ptyMaster)) fun _ log₁ _ => ?_
  simp only [hcommand]
  refine executes_bind (gives_mapError (cmdNew_gives (some command) args none))
    fun cmd log₂ hcmd => ?_
  refine executes_bind (gives_mapError (gives_within
    (enterContainer_enters (fun h => by cases h) processStatus))) fun _ log₃ _ => ?_
  exact Program.wp_onHalt_mapError (execInContainer_executes hcmd.1 hcmd.2.1 _)

/-- Only the child executes anything, and the command gets the variables of the
container. -/
theorem exec_executes (opts : ExecOptions) (processStatus : ProcStatus) :
    (exec opts processStatus).wp (hosting container host processStatus.globalPid)
      (fun _ _ => True) (Executes container.environment) log := by
  refine executes_bind (gives_within createPty_quiet) fun ptyMaster log₁ _ => ?_
  rw [Program.bind_eq, Program.wp_call_recording]
  refine ⟨trivial, ?_⟩
  rintro (e | fork) -
  · intro h
    cases h
  cases fork with
  | child =>
      exact Program.wp_onHalt_attempt
        (execChild_executes opts.command opts.arguments ptyMaster) fun _ _ heq => nomatch heq
  | parentOf childPid =>
      exact (execParentBranch_supervises ptyMaster childPid).wp_onHalt

end Parts

/-- The run ended with a command in this environment. -/
def Ran (host env : Environment) (log : Log) : Prop :=
  ∃ envs, Executed envs log ∧ env = inherit host envs

theorem exec_ran {container : Container} {host : Environment} {opts : ExecOptions}
    {processStatus : ProcStatus} {log : Log}
    (run : (exec opts processStatus).Runs (hosting container host processStatus.globalPid) []
      (.halted .executed) log) : Ran host (inherit host container.environment) log :=
  ⟨_, run.of_wp (exec_executes opts processStatus) rfl, rfl⟩

theorem inherit_eq_iff (container : Container) {host₁ host₂ : Environment}
    (hcntr : ∀ key, ascii "CNTR_" <+: key → host₁ key = host₂ key) :
    inherit host₁ container.environment = inherit host₂ container.environment ↔
      ∀ key, ¬ascii "CNTR_" <+: key → key ≠ pathVariable → container.vars key = none →
        host₁ key = host₂ key := by
  have hundefined : ∀ host key, key ≠ pathVariable → container.vars key = none →
      inherit host container.environment key = host key := by
    intro host key hpath hnone
    rw [inherit, container.environment_other hpath, hnone]
    rfl
  constructor
  · intro heq key _ hpath hnone
    have hkey := congrFun heq key
    rwa [hundefined host₁ key hpath hnone, hundefined host₂ key hpath hnone] at hkey
  · intro hagree
    funext key
    by_cases hprefix : ascii "CNTR_" <+: key
    · rw [inherit, inherit, hcntr key hprefix]
    cases hkey : container.environment key with
    | some value => rw [inherit, inherit, hkey, Option.some_or, Option.some_or]
    | none =>
        have hpath : key ≠ pathVariable := by
          rintro rfl
          exact container.environment_path hkey
        rw [container.environment_other hpath] at hkey
        rw [inherit, inherit, hagree key hprefix hpath hkey]

/-- Two hosts give a command the same environment if and only if they agree on every
variable that the target process does not have. -/
theorem exec_sameEnvironment_iff (container : Container) (opts : ExecOptions)
    (processStatus : ProcStatus) (host₁ host₂ : Environment)
    (hcntr : ∀ key, ascii "CNTR_" <+: key → host₁ key = host₂ key) {log₁ log₂ : Log}
    (run₁ : (exec opts processStatus).Runs (hosting container host₁ processStatus.globalPid) []
      (.halted .executed) log₁)
    (run₂ : (exec opts processStatus).Runs (hosting container host₂ processStatus.globalPid) []
      (.halted .executed) log₂) :
    ∃ env₁ env₂, Ran host₁ env₁ log₁ ∧ Ran host₂ env₂ log₂ ∧
      (env₁ = env₂ ↔ ∀ key, ¬ascii "CNTR_" <+: key → key ≠ pathVariable →
        container.vars key = none → host₁ key = host₂ key) :=
  ⟨_, _, exec_ran run₁, exec_ran run₂, inherit_eq_iff container hcntr⟩

def plainContainer : Container where
  environ := [ascii "PATH=/bin"]
  root := ascii "/"
  etcEnvironment := .error .invalidData

/-- A host with at most one variable besides. -/
def hostWith (key : Bytes) (value : Option Bytes) : Environment :=
  Function.update (fun _ => none) key value

def hosted (host : Environment) (log : Log) : (c : Syscall) → c.Answer
  | .getenv key => host key
  | .nextSplit (.atPath path _) _ => .ok plainContainer.environ[position path log]?
  | .readToString _ => plainContainer.etcEnvironment
  | c => willing log c

theorem given_hosted (host : Environment) (log : Log) (c : Syscall) :
    Given plainContainer host plainStatus.globalPid log ⟨c, hosted host log c⟩ := by
  cases c with
  | getenv key => exact rfl
  | nextSplit file delimiter =>
      cases file with
      | atPath path mode => exact fun _ => rfl
      | _ => trivial
  | readLink path => exact fun _ => rfl
  | readToString path => exact fun _ => rfl
  | _ => trivial

theorem exec_runs_hosted (host : Environment)
    (hplay : ((exec ⟨none, []⟩ plainStatus).replay (hosted host) 8 []).any
      (fun r => decide (r.1 = .halted .executed)) = true) :
    ∃ log, (exec ⟨none, []⟩ plainStatus).Runs
      (hosting plainContainer host plainStatus.globalPid) [] (.halted .executed) log := by
  obtain ⟨⟨o, log⟩, hrun, hend⟩ := (Option.any_eq_true _ _).mp hplay
  obtain rfl := of_decide_eq_true hend
  exact ⟨log, .of_play (fun log c => ⟨rfl, given_hosted host log c⟩) hrun⟩

def preloadVariable : Bytes := ascii "LD_PRELOAD"

/-- The command is executed in a run of `exec` on the host, with the environment. -/
def Hosted (host env : Environment) (log : Log) : Prop :=
  (exec ⟨none, []⟩ plainStatus).Runs (hosting plainContainer host plainStatus.globalPid) []
    (.halted .executed) log ∧ Ran host env log

theorem exec_sameEnvironment_path :
    ∃ log₁ log₂ env, Hosted (hostWith pathVariable none) env log₁ ∧
      Hosted (hostWith pathVariable (some (ascii "/opt/bin"))) env log₂ := by
  obtain ⟨log₁, run₁⟩ := exec_runs_hosted (hostWith pathVariable none) (by decide +kernel)
  obtain ⟨log₂, run₂⟩ :=
    exec_runs_hosted (hostWith pathVariable (some (ascii "/opt/bin"))) (by decide +kernel)
  have hother : ∀ key value, key ≠ pathVariable → hostWith pathVariable value key = none :=
    fun key value hkey => Function.update_of_ne hkey _ _
  have hcntr : ∀ key, ascii "CNTR_" <+: key → key ≠ pathVariable := by
    rintro key hprefix rfl
    exact absurd hprefix (by decide)
  obtain ⟨env₁, env₂, hran₁, hran₂, hsame⟩ := exec_sameEnvironment_iff plainContainer ⟨none, []⟩
    plainStatus _ _ (fun key hkey => by rw [hother key _ (hcntr key hkey), hother key _
      (hcntr key hkey)]) run₁ run₂
  obtain rfl := hsame.mpr fun key _ hkey _ => by rw [hother key _ hkey, hother key _ hkey]
  exact ⟨log₁, log₂, env₁, ⟨run₁, hran₁⟩, run₂, hran₂⟩

/-- A variable of the host reaches the command. -/
theorem exec_leaksVariable :
    ∃ log₁ log₂ env₁ env₂, Hosted (hostWith preloadVariable none) env₁ log₁ ∧
      Hosted (hostWith preloadVariable (some (ascii "/tmp/spy.so"))) env₂ log₂ ∧
      (∀ key, ascii "CNTR_" <+: key → hostWith preloadVariable none key =
        hostWith preloadVariable (some (ascii "/tmp/spy.so")) key) ∧
      env₁ preloadVariable = none ∧ env₂ preloadVariable = some (ascii "/tmp/spy.so") := by
  obtain ⟨log₁, run₁⟩ := exec_runs_hosted (hostWith preloadVariable none) (by decide +kernel)
  obtain ⟨log₂, run₂⟩ :=
    exec_runs_hosted (hostWith preloadVariable (some (ascii "/tmp/spy.so"))) (by decide +kernel)
  refine ⟨log₁, log₂, _, _, ⟨run₁, exec_ran run₁⟩, ⟨run₂, exec_ran run₂⟩, fun key hprefix => ?_,
    ?_, ?_⟩
  · have hkey : key ≠ preloadVariable := by
      rintro rfl
      exact absurd hprefix (by decide)
    rw [hostWith, hostWith, Function.update_of_ne hkey, Function.update_of_ne hkey]
  · decide +kernel
  · decide +kernel

end Cntr.InheritedEnvironment
