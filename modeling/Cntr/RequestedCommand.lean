import Cntr.AcceptedArguments
import Cntr.ProcessSystem

/-!
The program does what its command line asks for: the container engines are asked for
no other container, and no other command is executed.
-/

namespace Cntr.RequestedCommand

open Cntr.ByteText
open Cntr.CallTree
open Cntr.SystemCalls
open Cntr.AcceptedArguments
open Cntr.ArgumentRoundTrip
open Cntr.AttachParent (User)
open Cntr.CallFootprints
open Cntr.CommandExecution
open Cntr.CommandLine
open Cntr.EntryPoint (Linked)
open Cntr.HostCalls
open Cntr.ParserAgreement
open Cntr.ProcessRoles

variable {τ : Type}

/-- What a command line asks for, `cntr attach` or `cntr exec`. -/
structure Request (τ : Type) where
  attaches : Bool
  containerName : Bytes
  containerTypes : List τ
  words : List Bytes

def subcommandName : Bool → Bytes
  | true => ascii "attach"
  | false => ascii "exec"

def requestOf {lookups : Lookups τ} {knowsUser : Bool} (invocation : Invocation lookups knowsUser) :
    Request τ where
  attaches := knowsUser
  containerName := invocation.containerName
  containerTypes := (invocation.last Occurrence.types?).getD []
  words := invocation.commandPart.words

def someUser : User := ⟨0, 0, ascii "/"⟩

/-- The lookups with which every user name is accepted. -/
def acceptingUsers (linked : Linked τ) : Lookups τ where
  lookupContainerType := linked.lookupContainerType
  lookupUser := fun _ => .ok (some someUser)

/-- The arguments, the name of the program among them, are those of the request. -/
def Asks (linked : Linked τ) (args : List Bytes) (request : Request τ) : Prop :=
  ∃ (program : Bytes) (knowsUser : Bool)
      (invocation : Invocation (acceptingUsers linked) knowsUser),
    args = program :: subcommandName knowsUser :: invocation.args ∧ request = requestOf invocation

theorem subcommandName_inj {knowsUser knowsUser' : Bool}
    (h : subcommandName knowsUser = subcommandName knowsUser') : knowsUser = knowsUser' := by
  revert h
  cases knowsUser <;> cases knowsUser' <;> decide

theorem Asks.unique {linked : Linked τ} {args : List Bytes} {request request' : Request τ}
    (h : Asks linked args request) (h' : Asks linked args request') : request = request' := by
  obtain ⟨program, knowsUser, invocation, rfl, rfl⟩ := h
  obtain ⟨program', knowsUser', invocation', hargs, rfl⟩ := h'
  obtain ⟨-, hrest⟩ := List.cons.inj hargs
  obtain ⟨hname, hsame⟩ := List.cons.inj hrest
  obtain rfl := subcommandName_inj hname
  obtain ⟨inCommand, hend⟩ := attachLoop_invocation invocation
  obtain ⟨inCommand', hend'⟩ := attachLoop_invocation invocation'
  rw [hsame, hend'] at hend
  simp only [Except.ok.injEq, Parsed.run.injEq, AttachState.mk.injEq, Option.some.injEq] at hend
  obtain ⟨hcontainer, htypes, -, -, hwords, -⟩ := hend
  rw [requestOf, requestOf, hcontainer, htypes, hwords]

/-- What the words become: the command and its arguments, or a shell. -/
inductive Becomes (shells : List Bytes) : Bool → List Bytes → Bytes → List Bytes → Prop
  | given {attaches : Bool} (command : Bytes) (arguments : List Bytes) :
      Becomes shells attaches (command :: arguments) command arguments
  | shell {command : Bytes} (seen : command ∈ shells) :
      Becomes shells true [] command [ascii "-l"]
  | sh : Becomes shells true [] (ascii "sh") [ascii "-l"]
  | binSh : Becomes shells false [] (ascii "/bin/sh") []

theorem Becomes.mono {shells shells' : List Bytes} {attaches : Bool} {words : List Bytes}
    {command : Bytes} {arguments : List Bytes} (hsubset : shells ⊆ shells')
    (h : Becomes shells attaches words command arguments) :
    Becomes shells' attaches words command arguments := by
  cases h with
  | given => exact .given _ _
  | shell seen => exact .shell (hsubset seen)
  | sh => exact .sh
  | binSh => exact .binSh

/-- The value of `SHELL` that a process is told. -/
def shellIn : Event linux → Option Bytes
  | ⟨.getenv key, value⟩ => if key = ascii "SHELL" then value else none
  | _ => none

/-- The kernel that keeps these values. -/
def noting : Kernel linux (List Bytes) :=
  fun shells c r shells' => shells' = shells ++ (shellIn ⟨c, r⟩).toList

theorem subset_of_noting {shells shells' : List Bytes} {c : Syscall} {r : c.Answer}
    (answer : noting shells c r shells') : shells ⊆ shells' := by
  obtain rfl : shells' = shells ++ (shellIn ⟨c, r⟩).toList := answer
  exact List.subset_append_left _ _

/-- Only the command of the words is executed. -/
def Obeys (attaches : Bool) (words shells : List Bytes) : Syscall → Prop
  | .exec command arguments _ => Becomes shells attaches words command arguments
  | _ => True

/-- All calls but the one that executes a command. -/
def Stays : Syscall → Prop
  | .exec _ _ _ => False
  | _ => True

section Parts

variable {ε ε' α β : Type} {attaches : Bool} {words shells : List Bytes}

theorem obeys_of_stays {c : Syscall} (hc : Stays c) : Obeys attaches words shells c := by
  cases c <;> trivial

theorem stays_of_arranges {p : Sys ε α} (hp : p.Within Arranges fun _ => True) :
    p.Within Stays fun _ => True := by
  refine hp.mono (fun c hc => ?_) fun _ _ => trivial
  cases c <;> trivial

theorem stays_of_connects {p : Sys ε α} (hp : p.Within Connects fun _ => True) :
    p.Within Stays fun _ => True := by
  refine hp.mono (fun c hc => ?_) fun _ _ => trivial
  cases c <;> trivial

theorem stays_of_observes {p : Sys ε α} (hp : p.Within Observes fun _ => True) :
    p.Within Stays fun _ => True :=
  stays_of_arranges (arranges_of_observes hp)

theorem stays_of_confines {p : Sys ε α} (hp : p.Within Confines fun _ => True) :
    p.Within Stays fun _ => True :=
  stays_of_arranges (arranges_of_confines hp)

theorem stays_of_supervisorCall {p : Sys ε α} (hp : p.Within SupervisorCall fun _ => True) :
    p.Within Stays fun _ => True := by
  refine hp.mono (fun c hc => ?_) fun _ _ => trivial
  cases c with
  | exec _ _ _ => exact (hc.elim id fun h => h.elim id id).elim
  | _ => trivial

theorem stays_wp {p : Sys ε α} (hp : p.Within Stays fun _ => True) :
    p.wp noting (Obeys attaches words) (fun _ shells' => shells ⊆ shells') shells := by
  refine Program.wp_post (hp.wp (I := fun shells' => shells ⊆ shells') ?_ ?_
    (List.Subset.refl shells)) fun _ _ ho => ho.1
  · intro shells' c _ hc
    exact obeys_of_stays hc
  · intro shells' c r shells'' h _ answer
    exact List.Subset.trans h (subset_of_noting answer)

/-- Something else is done first. -/
theorem stays_bind {p : Sys ε α} (hp : p.Within Stays fun _ => True) {f : α → Sys ε β}
    (hf : ∀ a shells', shells ⊆ shells' →
      (f a).wp noting (Obeys attaches words) (fun _ _ => True) shells') :
    (p.bind f).wp noting (Obeys attaches words) (fun _ _ => True) shells := by
  refine Program.wp_seq (stays_wp hp) fun o shells' ho => ?_
  cases o with
  | value a => exact hf a shells' ho
  | error e => trivial
  | halted h => trivial

theorem mapError_obeys {f : ε → ε'} {p : Sys ε α}
    (hp : p.wp noting (Obeys attaches words) (fun _ _ => True) shells) :
    (p.mapError f).wp noting (Obeys attaches words) (fun _ _ => True) shells :=
  (Program.wp_mapError f p _ _).mpr (Program.wp_post hp fun _ _ _ => trivial)

/-- The command of the words is ready to be executed. -/
def Ready (attaches : Bool) (words : List Bytes) (cmd : Cmd) (shells : List Bytes) : Prop :=
  Becomes shells attaches words cmd.command cmd.arguments

theorem execute_obeys {cmd : Cmd} (h : Ready attaches words cmd shells)
    (environment : Environment) :
    (execute cmd environment).wp noting (Obeys attaches words) (fun _ _ => True) shells := by
  refine ⟨h, ?_⟩
  rintro (e | _) _ - <;> trivial

theorem ready_withTimezone {cmd : Cmd} (h : Ready attaches words cmd shells)
    (copy : Option Path) : Ready attaches words (AttachChild.withTimezone cmd copy) shells := by
  cases copy with
  | none => exact h
  | some path =>
      rw [AttachChild.withTimezone, Cmd.envDefault]
      split
      · exact h
      · exact h

/-- `SHELL`, if it can be read, or `sh`. -/
theorem shell_becomes :
    shell.wp noting (Obeys true []) (fun o shells' => ∀ command, o = .value command →
      Becomes shells' true [] command [ascii "-l"]) shells := by
  refine ⟨trivial, ?_⟩
  rintro (_ | value) shells' answer
  · rintro _ ⟨⟩
    exact .sh
  · obtain rfl : shells' = shells ++ [value] := answer
    show Program.wp _ _ (.done (if _ then _ else _)) _ _
    rintro _ ⟨⟩
    split
    · exact .shell (List.mem_append_right _ List.mem_cons_self)
    · exact .sh

theorem commandOrShell_becomes (words : List Bytes) :
    (commandOrShell words.head?).wp noting (Obeys true words)
      (fun o shells' => ∀ command, o = .value command → Becomes shells' true words command
        (if words.head?.isNone then [ascii "-l"] else words.tail)) shells := by
  cases words with
  | nil => exact shell_becomes
  | cons command arguments =>
      rintro _ ⟨⟩
      exact .given _ _

theorem cmdNew_ready {command : Option Bytes} {args : List Bytes}
    (hcommand : (commandOrShell command).wp noting (Obeys attaches words)
      (fun o shells' => ∀ command', o = .value command' → Becomes shells' attaches words command'
        (if command.isNone then [ascii "-l"] else args)) shells) (pid : Pid) (home : Option Path) :
    (Cmd.new command args pid home).wp noting (Obeys attaches words)
      (fun o shells' => ∀ cmd, o = .value cmd → Ready attaches words cmd shells') shells := by
  refine Program.wp_seq hcommand fun o shells₁ ho => ?_
  cases o with
  | error e => rintro _ ⟨⟩
  | halted h => rintro _ ⟨⟩
  | value command' =>
      have hready := ho command' rfl
      refine Program.wp_seq (stays_wp (stays_of_observes (readEnvironment_observes pid)))
        fun o shells₂ hsubset => ?_
      cases o with
      | error e => rintro _ ⟨⟩
      | halted h => rintro _ ⟨⟩
      | value vars =>
          refine ⟨trivial, ?_⟩
          rintro (e | containerRoot) shells₃ answer
          · rintro _ ⟨⟩
          · rintro _ ⟨⟩
            exact hready.mono (List.Subset.trans hsubset (subset_of_noting answer))

theorem cmd_bind {p : Sys ε Cmd} {g : ε → ε'} {f : Cmd → Sys ε' β}
    (hp : p.wp noting (Obeys attaches words)
      (fun o shells' => ∀ cmd, o = .value cmd → Ready attaches words cmd shells') shells)
    (hf : ∀ cmd shells', Ready attaches words cmd shells' →
      (f cmd).wp noting (Obeys attaches words) (fun _ _ => True) shells') :
    ((p.mapError g).bind f).wp noting (Obeys attaches words) (fun _ _ => True) shells := by
  rw [Program.wp_bind, Program.wp_mapError]
  refine Program.wp_post hp fun o shells' ho => ?_
  cases o with
  | value cmd => exact hf cmd shells' (ho cmd rfl)
  | error e => trivial
  | halted h => trivial

/-- Something else is done before the command is executed. -/
theorem ready_bind {cmd : Cmd} (h : Ready attaches words cmd shells) {p : Sys ε α}
    (hp : p.Within Stays fun _ => True) {f : α → Sys ε β}
    (hf : ∀ a shells', Ready attaches words cmd shells' →
      (f a).wp noting (Obeys attaches words) (fun _ _ => True) shells') :
    (p.bind f).wp noting (Obeys attaches words) (fun _ _ => True) shells :=
  stays_bind hp fun a shells' hsubset => hf a shells' (h.mono hsubset)

theorem enterAndExecute_obeys {cmd : Cmd} (h : Ready true words cmd shells)
    (options : AttachChild.ChildOptions) (baseDir : Path)
    (otherNamespaces : List NamespaceFiles.Namespace) :
    (AttachChild.enterAndExecute options baseDir cmd otherNamespaces).wp noting (Obeys true words)
      (fun _ _ => True) shells := by
  refine ready_bind h (stays_of_confines (applyAll_confines _)).mapError fun _ _ h => ?_
  refine ready_bind h (stays_of_connects setupPty_connects) fun ptyMaster _ h => ?_
  refine ready_bind h (stays_of_confines (applySecurityContext_confines trivial _ _)).mapError
    fun _ _ h => ?_
  refine ready_bind h (stays_of_connects (sendReady_connects _)) fun _ _ h => ?_
  have hchdir : (sys (.chdir baseDir) : Sys AttachChild.AttachError _).Within Stays
      fun _ => True := (Program.within_call _).mpr trivial
  refine ready_bind h hchdir fun _ _ h => ?_
  refine ready_bind h (stays_of_confines (inheritProfile_confines _)) fun _ _ h => ?_
  have hpath : (sys (.getenv (ascii "PATH")) : Sys CmdError _).Within Stays fun _ => True :=
    (Program.within_call _).mpr trivial
  exact mapError_obeys (ready_bind h hpath fun ownPath _ h => execute_obeys h _)

theorem attachChild_obeys (options : AttachChild.ChildOptions)
    (hcommand : options.command = words.head?) (harguments : options.arguments = words.tail) :
    (AttachChild.run options).wp noting (Obeys true words) (fun _ _ => True) shells := by
  have hpid : (sys .getpid : Sys AttachChild.AttachError Pid).Within Stays fun _ => True :=
    (Program.within_call _).mpr trivial
  refine stays_bind hpid fun pid _ _ => ?_
  refine stays_bind (stays_of_confines (moveTo_confines _ _)).mapError fun _ shells' _ => ?_
  have hcmd : (Cmd.new options.command options.arguments options.processStatus.globalPid
      options.effectiveHome).wp noting (Obeys true words)
      (fun o shells' => ∀ cmd, o = .value cmd → Ready true words cmd shells') shells' := by
    rw [hcommand, harguments]
    exact cmdNew_ready (commandOrShell_becomes words) _ _
  refine cmd_bind hcmd fun cmd _ h => ?_
  refine ready_bind h (stays_of_observes supportedNamespaces_observes).mapError
    fun supported _ h => ?_
  split
  · trivial
  · refine ready_bind h (stays_of_observes (attachOpenOthers_observes _ _ _ _))
      fun otherNamespaces _ h => ?_
    refine ready_bind h (stays_of_observes getBaseDir_observes) fun baseDir _ h => ?_
    refine ready_bind h (stays_of_arranges (assembleHierarchy_arranges _ _))
      fun localtimeCopy _ h => ?_
    exact enterAndExecute_obeys (ready_withTimezone h localtimeCopy) _ _ _

theorem execChild_obeys (processStatus : ContainerSetup.ProcStatus) (ptyMaster : Option Fd) :
    (ExecCommand.execChild processStatus words.head? words.tail ptyMaster).wp noting
      (Obeys false words) (fun _ _ => True) shells := by
  have hslave : (ExecCommand.attachPtySlave ptyMaster).Within Stays fun _ => True := by
    cases ptyMaster with
    | none => trivial
    | some ptyMaster => exact (stays_of_connects (attachPts_connects ptyMaster)).mapError
  refine stays_bind hslave fun _ shells' _ => ?_
  have hexe : (commandOrShell (words.head?.or (some (ascii "/bin/sh")))).wp noting
      (Obeys false words) (fun o shells' => ∀ command, o = .value command →
        Becomes shells' false words command
          (if (words.head?.or (some (ascii "/bin/sh"))).isNone then [ascii "-l"]
            else words.tail)) shells' := by
    cases words with
    | nil =>
        rintro _ ⟨⟩
        exact .binSh
    | cons command arguments =>
        rintro _ ⟨⟩
        exact .given _ _
  refine cmd_bind (cmdNew_ready hexe _ _) fun cmd _ h => ?_
  refine ready_bind h (stays_of_confines (enterContainer_confines trivial _)).mapError
    fun _ _ h => mapError_obeys ?_
  refine ready_bind h (stays_of_observes (containerEnvironment_observes _))
    fun environment _ h => ?_
  exact ready_bind h (stays_of_confines (preExec_confines _ _)).mapError fun _ _ h =>
    execute_obeys h _

/-- A process that ends with its child's exit code. -/
theorem exit_obeys {p : Sys ε Empty}
    (hp : p.wp noting (Obeys attaches words) (fun _ _ => True) shells) :
    ((p.attempt : Sys ε' (Except ε Empty)).bind fun _ => .halt (.exited 1) :
      Sys ε' Empty).wp noting (Obeys attaches words) (fun _ _ => True) shells := by
  rw [Program.wp_bind, Program.wp_attempt]
  refine Program.wp_post hp fun o _ _ => ?_
  cases o with
  | value never => exact nomatch never
  | error e => trivial
  | halted h => trivial

theorem createHelper_stays (effectiveUser : Option User) :
    (AttachParent.createHelper effectiveUser).Within Stays fun _ => True :=
  (createHelper_makesHelper effectiveUser).mono (fun c hc => by cases c <;> trivial)
    fun _ _ => trivial

theorem attach_obeys (opts : AttachParent.AttachOptions)
    (hcommand : opts.command = words.head?) (harguments : opts.arguments = words.tail)
    (processStatus : ContainerSetup.ProcStatus) :
    (AttachParent.attach opts processStatus).wp noting (Obeys true words) (fun _ _ => True)
      shells := by
  refine stays_bind (createHelper_stays _) fun helper shells₁ _ => ?_
  have hattached : (AttachParent.attachWithHelper
      (AttachParent.childOptions opts processStatus helper)).wp noting (Obeys true words)
      (fun _ _ => True) shells₁ := by
    refine stays_bind (stays_of_supervisorCall socketPair_supervisorCall) fun _ shells₂ _ => ?_
    refine ⟨trivial, ?_⟩
    rintro (e | _ | childPid) shells₃ -
    · trivial
    · refine ⟨trivial, fun _ shells₄ _ => exit_obeys ?_⟩
      exact attachChild_obeys _ hcommand harguments
    · exact Program.wp_post (stays_wp (stays_of_supervisorCall (supervisorCall_of_supervises
        (CallsMade.attachParentBranch_supervises childPid)))) fun _ _ _ => trivial
  show Program.wp _ _ ((Program.attempt _).bind _) _ _
  rw [Program.wp_bind, Program.wp_attempt]
  refine Program.wp_post hattached fun o shells₂ _ => ?_
  have hdrop := stays_of_supervisorCall (dropHelper_supervisorCall helper)
  cases o with
  | value never => exact nomatch never
  | error e => exact stays_bind hdrop fun _ _ _ => trivial
  | halted h => trivial

theorem exec_obeys (opts : ExecCommand.ExecOptions) (hcommand : opts.command = words.head?)
    (harguments : opts.arguments = words.tail) (processStatus : ContainerSetup.ProcStatus) :
    (ExecCommand.exec opts processStatus).wp noting (Obeys false words) (fun _ _ => True)
      shells := by
  refine stays_bind (stays_of_supervisorCall createPty_supervisorCall)
    fun ptyMaster shells₁ _ => ?_
  refine ⟨trivial, ?_⟩
  rintro (e | _ | childPid) shells₂ -
  · trivial
  · refine exit_obeys ?_
    rw [hcommand, harguments]
    exact execChild_obeys processStatus ptyMaster
  · exact Program.wp_post (stays_wp (stays_of_supervisorCall (supervisorCall_of_supervises
      (CallsMade.execParentBranch_supervises ptyMaster childPid)))) fun _ _ _ => trivial

end Parts

section Parsing

variable {σ : Type} {K : Kernel (linuxAndHost τ) σ} {s : σ}

/-- Where users are looked up with some answer and no error, they are found: the
arguments that the program accepts are those of the grammar, whoever the users are. -/
theorem attachLoop_accepts (linked : Linked τ) (state : AttachState τ) (args : List Bytes) :
    (EntryPoint.attachLoop linked state args).wp K (fun _ _ => True)
      (fun o _ => ∀ final, o = .value (.run final) → ∀ user, ∃ user',
        CommandLine.attachLoop (acceptingUsers linked) { state with effectiveUser := user } args =
          .ok (.run { final with effectiveUser := user' })) s := by
  fun_induction EntryPoint.attachLoop linked state args generalizing s with
  | case1 state =>
      rintro _ ⟨⟩ user
      exact ⟨user, rfl⟩
  | case2 state arg args hin ih =>
      refine Program.wp_post ih fun o _ ho final heq user => ?_
      rw [CommandLine.attachLoop.eq_def]
      dsimp only
      rw [if_pos hin]
      exact ho final heq user
  | case3 => rintro _ ⟨⟩
  | case4 => rintro _ ⟨⟩
  | case5 => rintro _ ⟨⟩
  | case6 state arg hin help version types typesStr args ih =>
      show Program.wp _ _ (Program.bind _ _) _ _
      cases hfound : parseContainerTypes linked.lookupContainerType typesStr with
      | error e => rintro _ ⟨⟩
      | ok found =>
          refine Program.wp_post (ih found) fun o _ ho final heq user => ?_
          rw [CommandLine.attachLoop.eq_def]
          dsimp only
          rw [if_neg hin, if_neg help, if_neg version, if_pos types]
          simp only [acceptingUsers, hfound]
          exact ho final heq user
  | case7 => rintro _ ⟨⟩
  | case8 state hin username args help version types ih =>
      have hlookup : (UserLookup.lookup (τ := τ) username).Within (fun _ => True)
          fun _ => True := ProgramSafety.lookup_within (fun _ _ => trivial) username
      show Program.wp _ _ ((Program.attempt _).bind _) _ _
      rw [Program.wp_bind, Program.wp_attempt]
      refine Program.wp_post (hlookup.wp (I := fun _ => True) (fun _ _ _ _ => trivial)
        (fun _ _ _ _ _ _ _ => trivial) trivial) ?_
      rintro ((_ | found) | e | h) _ -
      · rintro _ ⟨⟩
      · refine Program.wp_post (ih found) fun o _ ho final heq user => ?_
        rw [CommandLine.attachLoop.eq_def]
        dsimp only
        rw [if_neg hin, if_neg help, if_neg version, if_neg types, if_pos rfl]
        exact ho final heq (some someUser)
      · rintro _ ⟨⟩
      · rintro _ ⟨⟩
  | case9 => rintro _ ⟨⟩
  | case10 state hin modeStr args help version types user ih =>
      show Program.wp _ _ (Program.bind _ _) _ _
      cases hmode : parseApparmorMode modeStr with
      | error e => rintro _ ⟨⟩
      | ok mode =>
          refine Program.wp_post (ih mode) fun o _ ho final heq user' => ?_
          rw [CommandLine.attachLoop.eq_def]
          dsimp only
          rw [if_neg hin, if_neg help, if_neg version, if_neg types, if_neg user, if_pos rfl,
            hmode]
          exact ho final heq user'
  | case11 state args hin help version types user apparmor ih =>
      refine Program.wp_post ih fun o _ ho final heq user' => ?_
      rw [CommandLine.attachLoop.eq_def]
      dsimp only
      rw [if_neg hin, if_neg help, if_neg version, if_neg types, if_neg user, if_neg apparmor,
        if_pos rfl]
      exact ho final heq user'
  | case12 => rintro _ ⟨⟩
  | case13 state arg args hin help version types user apparmor separator plain hname ih =>
      refine Program.wp_post ih fun o _ ho final heq user' => ?_
      rw [attachLoop_positional (by simpa using hin) plain]
      simp only [hname]
      exact ho final heq user'
  | case14 state arg args hin help version types user apparmor separator plain name hname ih =>
      refine Program.wp_post ih fun o _ ho final heq user' => ?_
      rw [attachLoop_positional (by simpa using hin) plain]
      simp only [hname]
      simpa only [hname] using ho final heq user'

end Parsing

section Program

variable {ε ε' α β : Type} {linked : Linked τ} {args shells : List Bytes}

/-- The container engines are only asked for the container of the command line, and only
its command is executed. -/
def Asked (linked : Linked τ) (args shells : List Bytes) : (linuxAndHost τ).Call → Prop
  | .inl (.exec command arguments _) =>
      ∃ request, Asks linked args request ∧
        Becomes shells request.attaches request.words command arguments
  | .inr (.lookupContainerPid name types) =>
      ∃ request, Asks linked args request ∧ name = request.containerName ∧
        types = request.containerTypes
  | _ => True

/-- The calls that need no container. -/
def Preliminary : (linuxAndHost τ).Call → Prop
  | .inl c => Observes c
  | .inr (.lookupContainerPid _ _) => False
  | .inr _ => True

theorem asked_of_preliminary {c : (linuxAndHost τ).Call} (hc : Preliminary c) :
    Asked linked args shells c := by
  rcases c with c | c
  · cases c <;> trivial
  · cases c <;> trivial

theorem asked_of_obeys {request : Request τ} (hasks : Asks linked args request) {c : Syscall}
    (hc : Obeys request.attaches request.words shells c) : Asked linked args shells (.inl c) := by
  cases c with
  | exec => exact ⟨request, hasks, hc⟩
  | _ => trivial

theorem preliminary_wp {p : Cli τ ε α} (hp : p.Within Preliminary fun _ => True) :
    p.wp noting.beyond (Asked linked args) (fun _ _ => True) shells := by
  refine Program.wp_post (hp.wp (I := fun _ => True) ?_ (fun _ _ _ _ _ _ _ => trivial) trivial)
    fun _ _ _ => trivial
  intro _ c _ hc
  exact asked_of_preliminary hc

theorem asked_bind {p : Cli τ ε α} {f : α → Cli τ ε β} {P : α → Prop}
    (hp : p.wp noting.beyond (Asked linked args) (fun o _ => ∀ a, o = .value a → P a) shells)
    (hf : ∀ a shells', P a →
      (f a).wp noting.beyond (Asked linked args) (fun _ _ => True) shells') :
    (p.bind f).wp noting.beyond (Asked linked args) (fun _ _ => True) shells := by
  refine Program.wp_seq hp fun o shells' ho => ?_
  cases o with
  | value a => exact hf a shells' (ho a rfl)
  | error e => trivial
  | halted h => trivial

theorem preliminary_bind {p : Cli τ ε α} (hp : p.Within Preliminary fun _ => True)
    {f : α → Cli τ ε β}
    (hf : ∀ a shells', (f a).wp noting.beyond (Asked linked args) (fun _ _ => True) shells') :
    (p.bind f).wp noting.beyond (Asked linked args) (fun _ _ => True) shells :=
  asked_bind (P := fun _ => True)
    (Program.wp_post (preliminary_wp hp) fun _ _ _ _ _ => trivial) fun a shells' _ => hf a shells'

theorem mapError_asked {f : ε → ε'} {p : Cli τ ε α}
    (hp : p.wp noting.beyond (Asked linked args) (fun _ _ => True) shells) :
    (p.mapError f).wp noting.beyond (Asked linked args) (fun _ _ => True) shells :=
  (Program.wp_mapError f p _ _).mpr (Program.wp_post hp fun _ _ _ => trivial)

theorem hasMountApi_preliminary :
    (EntryPoint.hasMountApi : Cli τ ε Bool).Within Preliminary fun _ => True := by
  refine ⟨trivial, ?_⟩
  rintro (e | _) <;> trivial

theorem onLinux_preliminary {p : Sys ε α} (hp : p.Within Observes fun _ => True) :
    (onLinux (τ := τ) p).Within Preliminary fun _ => True :=
  Program.within_left hp

theorem notify_preliminary (notice : Notice) :
    (EntryPoint.notify notice : Cli τ ε EntryPoint.ExitCode).Within Preliminary fun _ => True :=
  ⟨trivial, fun _ => trivial⟩

theorem lookupContainer_asked {request : Request τ} (hasks : Asks linked args request)
    (apparmorMode : ApparmorProfile.ApparmorMode) :
    (EntryPoint.lookupContainer request.containerName request.containerTypes
      apparmorMode).wp noting.beyond (Asked linked args) (fun _ _ => True) shells := by
  refine ⟨⟨request, hasks, rfl, rfl⟩, fun r shells' _ => preliminary_wp ?_⟩
  show Program.Within _ _ ((Program.ofExcept _ r).bind _)
  refine Program.Within.bind ((Program.within_ofExcept _ r).mpr trivial) fun pidRaw => ?_
  split
  · exact (onLinux_preliminary (status_observes _ _)).mapError
  · trivial

/-- What follows once the request is known. -/
theorem found_asked {request : Request τ} (hasks : Asks linked args request)
    (apparmorMode : ApparmorProfile.ApparmorMode) {g : EntryPoint.ContainerError → ε}
    {f : ContainerSetup.ProcStatus → Sys ε' Empty} {e : ε' → ε} {unavailable : ε}
    (hf : ∀ processStatus shells', (f processStatus).wp noting
      (Obeys request.attaches request.words) (fun _ _ => True) shells') :
    ((EntryPoint.hasMountApi : Cli τ ε Bool).bind fun available =>
      if available then
        ((EntryPoint.lookupContainer request.containerName request.containerTypes
          apparmorMode).mapError g).bind fun processStatus =>
            (onLinux (f processStatus)).mapError e
      else .fail unavailable).wp noting.beyond (Asked linked args) (fun _ _ => True) shells := by
  refine preliminary_bind hasMountApi_preliminary fun available shells₁ => ?_
  cases available with
  | false => trivial
  | true =>
      have hfound : ((EntryPoint.lookupContainer request.containerName request.containerTypes
          apparmorMode).mapError g).wp noting.beyond (Asked linked args) (fun _ _ => True)
          shells₁ := mapError_asked (lookupContainer_asked hasks apparmorMode)
      refine asked_bind (P := fun _ => True) (Program.wp_post hfound fun _ _ _ _ _ => trivial)
        fun processStatus shells₂ _ => mapError_asked ?_
      refine (Program.wp_left _ _ _).mpr ?_
      exact Program.wp_mono (fun _ _ => asked_of_obeys hasks) _ (fun _ _ => id)
        (hf processStatus shells₂)

/-- The program ends with what the command ends with. -/
theorem never_asked {p : Cli τ ε Empty}
    (hp : p.wp noting.beyond (Asked linked args) (fun _ _ => True) shells) {f : Empty → Cli τ ε α} :
    (p.bind f).wp noting.beyond (Asked linked args) (fun _ _ => True) shells :=
  asked_bind (P := fun _ => True) (Program.wp_post hp fun _ _ _ _ _ => trivial)
    fun never => nomatch never

theorem runAttach_asked {options : CommandLine.AttachOptions τ} {words : List Bytes}
    (hasks : Asks linked args ⟨true, options.containerName, options.containerTypes, words⟩)
    (hcommand : options.command = words.head?) (harguments : options.arguments = words.tail) :
    (EntryPoint.runAttach options).wp noting.beyond (Asked linked args) (fun _ _ => True)
      shells :=
  never_asked (mapError_asked (found_asked hasks options.apparmorMode fun processStatus _ =>
    attach_obeys options.toAttachOptions hcommand harguments processStatus))

theorem runExec_asked {options : CommandLine.ExecOptions τ} {words : List Bytes}
    (hasks : Asks linked args ⟨false, options.containerName, options.containerTypes, words⟩)
    (hcommand : options.command = words.head?) (harguments : options.arguments = words.tail) :
    (EntryPoint.runExec options).wp noting.beyond (Asked linked args) (fun _ _ => True)
      shells :=
  never_asked (mapError_asked (found_asked hasks options.apparmorMode fun processStatus _ =>
    exec_obeys options.toExecOptions hcommand harguments processStatus))

/-- What the loop over the arguments of `attach` leads to. -/
theorem parsed_asked {words : List Bytes} :
    ((EntryPoint.attachLoop linked .initial words).mapError
        EntryPoint.MainError.message).wp noting.beyond (Asked linked args)
      (fun o _ => ∀ parsed, o = .value parsed → ∀ state, parsed = .run state →
        ∃ user, CommandLine.attachLoop (acceptingUsers linked) .initial words =
          .ok (.run { state with effectiveUser := user })) shells := by
  have hcalls : (EntryPoint.attachLoop linked .initial words).Within Preliminary
      fun _ => True := ProgramSafety.attachLoop_within (fun _ _ => trivial) _ _ _
  refine (Program.wp_mapError _ _ _ _).mpr (Program.wp_post (Program.wp_and
    (preliminary_wp hcalls) (attachLoop_accepts linked .initial words)) ?_)
  rintro (parsed | e | h) shells' ⟨-, haccepts⟩
  · rintro _ ⟨⟩ state rfl
    exact haccepts state rfl none
  · rintro _ ⟨⟩
  · rintro _ ⟨⟩

theorem parseAttachArgs_asked {program : Bytes} {words : List Bytes}
    (hargs : args = program :: ascii "attach" :: words) :
    (EntryPoint.parseAttachArgs linked words).wp noting.beyond (Asked linked args)
      (fun _ _ => True) shells := by
  refine asked_bind parsed_asked fun parsed shells' hparsed => ?_
  cases parsed with
  | help => exact preliminary_wp (notify_preliminary _)
  | version => exact preliminary_wp (notify_preliminary _)
  | run state =>
      obtain ⟨user, hstate⟩ := hparsed state rfl
      show Program.wp _ _ ((Program.ofExcept _ state.options).bind _) _ _
      rw [AttachState.options]
      cases hname : state.containerId with
      | none => trivial
      | some containerName =>
          obtain ⟨invocation, inCommand, rfl, hfinal⟩ :=
            exists_invocation true (fun hknows => by cases hknows) hstate hname
          rw [AttachState.mk.injEq] at hfinal
          obtain ⟨hcontainer, htypes, -, -, hwords, -⟩ := hfinal
          obtain rfl := Option.some.inj (hname.symm.trans hcontainer)
          refine runAttach_asked ⟨program, true, invocation, hargs, ?_⟩ rfl rfl
          rw [requestOf, htypes, hwords]

theorem parseExecArgs_asked {program : Bytes} {words : List Bytes}
    (hargs : args = program :: ascii "exec" :: words) :
    (EntryPoint.parseExecArgs linked words).wp noting.beyond (Asked linked args)
      (fun _ _ => True) shells := by
  show Program.wp _ _ ((Program.ofExcept _ _).bind _) _ _
  cases hparsed : execLoop linked.lookupContainerType .initial words with
  | error e => trivial
  | ok parsed =>
      cases parsed with
      | help => exact preliminary_wp (notify_preliminary _)
      | version => exact preliminary_wp (notify_preliminary _)
      | run state =>
          have hstate : execLoop (acceptingUsers linked).lookupContainerType .initial words =
              .ok (.run state) := hparsed
          obtain ⟨hnot, final, hattach, rfl⟩ := attachLoop_of_execLoop hstate
          show Program.wp _ _ ((Program.ofExcept _ (ExecState.options _)).bind _) _ _
          rw [ExecState.options]
          cases hname : (forgetUser final).containerId with
          | none => trivial
          | some containerName =>
              obtain ⟨invocation, inCommand, rfl, rfl⟩ :=
                exists_invocation false (fun _ => hnot) hattach hname
              obtain rfl := Option.some.inj hname
              exact runExec_asked ⟨program, false, invocation, hargs, rfl⟩ rfl rfl

theorem runSubcommand_asked :
    (EntryPoint.runSubcommand linked args.tail).wp noting.beyond (Asked linked args)
      (fun _ _ => True) shells := by
  cases args with
  | nil => exact preliminary_bind (notify_preliminary _) fun _ _ => trivial
  | cons program args =>
      rw [List.tail_cons]
      cases args with
      | nil => exact preliminary_bind (notify_preliminary _) fun _ _ => trivial
      | cons subcommand args =>
          rw [EntryPoint.runSubcommand]
          split
          · next hattach => exact parseAttachArgs_asked (by rw [hattach])
          · split
            · next hexec => exact parseExecArgs_asked (by rw [hexec])
            · split
              · exact preliminary_wp (notify_preliminary _)
              · split
                · exact preliminary_wp (notify_preliminary _)
                · trivial

theorem main_asked :
    (EntryPoint.main linked args).wp noting.beyond (Asked linked args) (fun _ _ => True)
      shells := by
  have hdumpable : (EntryPoint.maybeSetDumpable (τ := τ) (ε := EntryPoint.MainError)).Within
      Preliminary fun _ => True := by
    refine (onLinux_preliminary (envVar_observes _)).bind fun value => ?_
    split
    · exact ⟨trivial, fun _ => trivial⟩
    · trivial
  have hrun : (EntryPoint.runWithArgs linked args).wp noting.beyond (Asked linked args)
      (fun _ _ => True) shells := by
    refine preliminary_bind hdumpable fun _ shells' => ?_
    rw [EntryPoint.decodeArgs]
    cases args.find? fun arg => !isUtf8 arg with
    | some invalid => trivial
    | none => exact runSubcommand_asked
  rw [EntryPoint.main, Program.bind_eq, Program.wp_bind, Program.wp_attempt]
  refine Program.wp_post hrun fun o _ _ => ?_
  cases o with
  | value code => trivial
  | error e => trivial
  | halted h => trivial

def hostShell : Event (linuxAndHost τ) → Option Bytes
  | ⟨.inl c, r⟩ => shellIn ⟨c, r⟩
  | ⟨.inr _, _⟩ => none

/-- The values of `SHELL` that a process has been told. -/
def shellsIn (log : List (Event (linuxAndHost τ))) : List Bytes := log.filterMap hostShell

theorem noting_of_tracing {log log' : List (Event (linuxAndHost τ))} {c : (linuxAndHost τ).Call}
    {r : (linuxAndHost τ).Answer c} (answer : tracing (linuxAndHost τ) log c r log') :
    noting.beyond (shellsIn log) c r (shellsIn log') := by
  have hlog : log' = log ++ [⟨c, r⟩] := answer
  have hshells : shellsIn log' = shellsIn log ++ (hostShell ⟨c, r⟩).toList := by
    rw [hlog, shellsIn, filterMap_concat]
    rfl
  rw [hshells]
  cases c with
  | inl c => rfl
  | inr c => exact List.append_nil _

/-- In every run of every process, the container engines are only asked for the container
that the command line names, and nothing is executed but the command that it names, or a
shell if it names none; and it names one container and one command at most. -/
theorem main_does_as_asked {c : (linuxAndHost τ).Call} {log : List (Event (linuxAndHost τ))}
    (issue : (EntryPoint.main linked args).Issues (tracing _) [] c log) :
    Asked linked args (shellsIn log) c ∧ {request | Asks linked args request}.Subsingleton :=
  ⟨(issue.map (f := shellsIn) fun _ _ _ _ => noting_of_tracing).of_wp main_asked,
    fun _ h _ h' => h.unique h'⟩

end Program

section Example

open Cntr.EntryPoint (plainLinked)
open Cntr.ProcessSystem (childOfJoe)

def listInBox : List Bytes :=
  [ascii "cntr", ascii "exec", ascii "--apparmor", ascii "off", ascii "box", ascii "ls",
    ascii "-l"]

/-- The process that asks is the child that enters the container. -/
def childInBox (log : List (Event (linuxAndHost Unit))) :
    (c : (linuxAndHost Unit).Call) → (linuxAndHost Unit).Answer c
  | .inl .fork => .ok .child
  | .inl (.chroot _) | .inl (.chdir _) => .ok ()
  | c => childOfJoe log c

def lists : Event (linuxAndHost Unit) → Bool
  | ⟨.inl (.exec command arguments _), _⟩ => command = ascii "ls" ∧ arguments = [ascii "-l"]
  | _ => false

theorem main_does_as_asked_ls :
    ∃ (log : List (Event (linuxAndHost Unit))) (envs : Environment),
      (EntryPoint.main plainLinked listInBox).Issues (tracing _) []
        (.inl (.exec (ascii "ls") [ascii "-l"] envs)) log ∧
      Asked plainLinked listInBox (shellsIn log) (.inl (.exec (ascii "ls") [ascii "-l"] envs)) ∧
        {request | Asks plainLinked listInBox request}.Subsingleton := by
  have hplay : ((EntryPoint.main plainLinked listInBox).replay childInBox 8 []).any
      (fun r => r.2.any lists) = true := by
    decide +kernel
  obtain ⟨⟨o, log⟩, hrun, hend⟩ := (Option.any_eq_true _ _).mp hplay
  obtain ⟨⟨c, r⟩, hmem, hlists⟩ := List.any_eq_true.mp hend
  obtain ⟨before, after, rfl⟩ := List.append_of_mem hmem
  have issue := ForkingPrograms.issues_of_runs (Program.Runs.of_replay childInBox 8 hrun) before
    after rfl
  unfold lists at hlists
  split at hlists
  · next command arguments envs _ heq =>
      cases heq
      obtain ⟨rfl, rfl⟩ := of_decide_eq_true hlists
      exact ⟨before, envs, issue, main_does_as_asked issue⟩
  · cases hlists

end Example

end Cntr.RequestedCommand
