import Cntr.CommandLine
import Cntr.ProcessStatus
import Cntr.UserLookup

/-!
The whole program, from its arguments to its exit code. The texts of help and of
errors of the container engines are left out; the errors themselves are not.
-/

namespace Cntr.EntryPoint

open Cntr.ByteText
open Cntr.CallTree
open Cntr.SystemCalls
open Cntr.ApparmorProfile (ApparmorMode)
open Cntr.AttachChild (AttachError envVar)
open Cntr.AttachParent (User)
open Cntr.CommandLine
open Cntr.ContainerSetup (ProcStatus)
open Cntr.ExecCommand (ExecError)
open Cntr.HostCalls
open Cntr.IdTranslation (ProcfsError)
open Cntr.UserLookup

variable {τ ε : Type}

/-- What is linked into the program: the table of container types, and the texts
of error numbers. -/
structure Linked (τ : Type) where
  lookupContainerType : Bytes → Option τ
  strerror : Errno → Bytes

/-- Without container types, and without texts. -/
def plainLinked : Linked Unit where
  lookupContainerType := fun _ => none
  strerror := fun _ => []

inductive ContainerError where
  | lookup (message : Bytes)
  | invalidPid (pid : Nat) (container : Bytes)
  | procfs (source : ProcfsError)

/-- `attach` fails before it has found the container, or after. -/
inductive AttachFailure where
  | mountApiUnavailable
  | lookupContainer (container : Bytes) (source : ContainerError)
  | attaching (source : AttachError)

inductive ExecFailure where
  | mountApiUnavailable
  | lookupContainer (container : Bytes) (source : ContainerError)
  | executing (source : ExecError)

inductive MainError where
  | message (text : Bytes)
  | attach (containerName : Bytes) (source : AttachFailure)
  | exec (containerName : Bytes) (source : ExecFailure)

inductive ExitCode where
  | success
  | failure
  deriving DecidableEq

/-- Any error but one means that the call exists. -/
def probeMountApi : Cli τ ε Bool := do
  match ← askHost (.fsopen (ascii "__cntr_probe__")) with
  | .ok _ => return true
  | .error e => return e ≠ .nosys

/-- The answer is kept for later calls, of which there are none. -/
def hasMountApi : Cli τ ε Bool := probeMountApi

def lookupContainer (containerName : Bytes) (containerTypes : List τ)
    (apparmorMode : ApparmorMode) : Cli τ ContainerError ProcStatus := do
  let pidRaw ← Program.ofExcept .lookup
    (← askHost (.lookupContainerPid containerName containerTypes))
  if h : 0 < pidRaw then
    (onLinux (ProcessStatus.status ⟨pidRaw, h⟩ apparmorMode)).mapError .procfs
  else .fail (.invalidPid pidRaw containerName)

def attach (opts : CommandLine.AttachOptions τ) : Cli τ AttachFailure Empty := do
  if ← hasMountApi then
    let processStatus ← (lookupContainer opts.containerName opts.containerTypes
      opts.apparmorMode).mapError (.lookupContainer opts.containerName)
    (onLinux (AttachParent.attach opts.toAttachOptions processStatus)).mapError .attaching
  else .fail .mountApiUnavailable

def exec (opts : CommandLine.ExecOptions τ) : Cli τ ExecFailure Empty := do
  if ← hasMountApi then
    let processStatus ← (lookupContainer opts.containerName opts.containerTypes
      opts.apparmorMode).mapError (.lookupContainer opts.containerName)
    (onLinux (ExecCommand.exec opts.toExecOptions processStatus)).mapError .executing
  else .fail .mountApiUnavailable

/-- `format_chain` of an error of the lookup. -/
def passwdErrorChain (strerror : Errno → Bytes) : PasswdError → Bytes
  | .invalidName name => ascii "user name '" ++ name ++ ascii "' contains a NUL byte"
  | .getpwnam user source =>
      ascii "getpwnam_r failed for user '" ++ user ++ ascii "'" ++ ascii ": " ++ strerror source

/-- The loop of `parse_attach_args`, in which users are looked up. -/
def attachLoop (linked : Linked τ) :
    AttachState τ → List Bytes → Cli τ Bytes (Parsed (AttachState τ))
  | state, [] => return .run state
  | state, arg :: args =>
      if state.inCommand then
        attachLoop linked { state with commandParts := state.commandParts ++ [arg] } args
      else if arg = ascii "-h" ∨ arg = ascii "--help" then return .help
      else if arg = ascii "-V" ∨ arg = ascii "--version" then return .version
      else if arg = ascii "-t" ∨ arg = ascii "--type" then
        match args with
        | [] => .fail (ascii "--type requires an argument")
        | typesStr :: args => do
            let types ← Program.ofExcept
              (fun e => ascii "invalid --type argument '" ++ typesStr ++ ascii "': " ++ e)
              (parseContainerTypes linked.lookupContainerType typesStr)
            attachLoop linked { state with containerTypes := types } args
      else if arg = ascii "--effective-user" then
        match args with
        | [] => .fail (ascii "--effective-user requires an argument")
        | username :: args => do
            match ← (lookup username).attempt with
            | .ok (some user) =>
                attachLoop linked { state with effectiveUser := some user } args
            | .ok none => .fail (ascii "user '" ++ username ++ ascii "' not found")
            | .error e =>
                .fail (ascii "failed to lookup user '" ++ username ++ ascii "': " ++
                  passwdErrorChain linked.strerror e)
      else if arg = ascii "--apparmor" then
        match args with
        | [] => .fail (ascii "--apparmor requires an argument")
        | modeStr :: args => do
            let mode ← Program.ofExcept id (parseApparmorMode modeStr)
            attachLoop linked { state with apparmorMode := mode } args
      else if arg = ascii "--" then attachLoop linked { state with inCommand := true } args
      else if arg.head? = some dash then .fail (ascii "unknown option: " ++ arg)
      else
        match state.containerId with
        | none => attachLoop linked { state with containerId := some arg } args
        | some _ =>
            attachLoop linked { state with
              commandParts := state.commandParts ++ [arg]
              inCommand := true } args

def notify (notice : Notice) : Cli τ ε ExitCode := do
  askHost (.print notice)
  return .success

def runAttach (options : CommandLine.AttachOptions τ) : Cli τ MainError ExitCode := do
  let never ← (attach options).mapError (.attach options.containerName)
  nomatch never

def runExec (options : CommandLine.ExecOptions τ) : Cli τ MainError ExitCode := do
  let never ← (exec options).mapError (.exec options.containerName)
  nomatch never

def parseAttachArgs (linked : Linked τ) (args : List Bytes) : Cli τ MainError ExitCode := do
  match ← (attachLoop linked .initial args).mapError .message with
  | .help => notify .attachHelp
  | .version => notify .version
  | .run state => do
      let options ← Program.ofExcept .message state.options
      runAttach options

def parseExecArgs (linked : Linked τ) (args : List Bytes) : Cli τ MainError ExitCode := do
  match ← Program.ofExcept .message (execLoop linked.lookupContainerType .initial args) with
  | .help => notify .execHelp
  | .version => notify .version
  | .run state => do
      let options ← Program.ofExcept .message state.options
      runExec options

def maybeSetDumpable : Cli τ ε Unit := do
  let value ← onLinux (envVar (ascii "CNTR_ALLOW_SETCAP"))
  if value = some (ascii "1") then
    let _ ← askHost .setDumpable
    return ()
  else return ()

/-- The arguments as strings, unless one is not UTF-8. -/
def decodeArgs (args : List Bytes) : Except MainError (List Bytes) :=
  match args.find? fun arg => !isUtf8 arg with
  | some invalid =>
      .error (.message (ascii "argument contains invalid UTF-8: " ++ fromUtf8Lossy invalid))
  | none => .ok args

def printHelp : Cli τ ε ExitCode := notify .help

def runSubcommand (linked : Linked τ) (args : List Bytes) : Cli τ MainError ExitCode :=
  match args with
  | [] => do
      let _ ← printHelp
      .fail (.message (ascii "no subcommand provided"))
  | subcommand :: args =>
      if subcommand = ascii "attach" then parseAttachArgs linked args
      else if subcommand = ascii "exec" then parseExecArgs linked args
      else if subcommand ∈ [ascii "help", ascii "-h", ascii "--help"] then printHelp
      else if subcommand ∈ [ascii "version", ascii "-V", ascii "--version"] then notify .version
      else .fail (.message (ascii "unknown subcommand: " ++ subcommand))

def runWithArgs (linked : Linked τ) (args : List Bytes) : Cli τ MainError ExitCode := do
  maybeSetDumpable
  let args ← Program.ofExcept id (decodeArgs args)
  runSubcommand linked args.tail

def main (linked : Linked τ) (args : List Bytes) : Cli τ Empty ExitCode := do
  match ← (runWithArgs linked args).attempt with
  | .ok code => return code
  | .error _ => return .failure

end Cntr.EntryPoint
