import Cntr.ApparmorProfile
import Cntr.WhiteSpaceText

namespace Cntr.CommandExecution

open Cntr.ByteText
open Cntr.CallTree
open Cntr.SystemCalls
open Cntr.ApparmorProfile
open Cntr.WholeWrites
open Cntr.WhiteSpaceText

inductive CmdError where
  | openEnviron (path : Path) (source : IoError)
  | readContainerRoot (path : Path) (source : IoError)
  | exec (command : Bytes) (source : IoError)
  deriving DecidableEq

structure Cmd where
  environment : Environment
  command : Bytes
  arguments : List Bytes
  home : Option Path
  containerRoot : Path

/-- What `collect` does with an item: a part without `=` is no variable. -/
def insertVariable (vars : Environment) (var : Bytes) : Environment :=
  match var.span (· != 61) with
  | (_, []) => vars
  | (key, _ :: value) => Function.update vars key (some value)

/-- One step of the iterator over the parts of `environ`; an item that cannot be
read is skipped. -/
def environmentRound (file : File) (vars : Environment) :
    Sys CmdError (Environment ⊕ Environment) := do
  match ← sys (.nextSplit file 0) with
  | .error _ => return .inl vars
  | .ok none => return .inr vars
  | .ok (some var) => return .inl (insertVariable vars var)

def readEnvironment (pid : Pid) : Sys CmdError Environment := do
  let procfsPath ← Procfs.getPath
  let path := pushPath (pushPath procfsPath pid.text) (ascii "environ")
  Program.ofExcept (.openEnviron path) (← sys (.openFile path .read))
  .iterate (environmentRound (.atPath path .read)) (fun _ => none) .done

section Reading

/-- The variables in the first `n` parts. -/
def collected (parts : List Bytes) (n : Nat) : Environment :=
  (parts.take n).foldl insertVariable fun _ => none

theorem collected_of_length_le {parts : List Bytes} {n : Nat} (h : parts.length ≤ n) :
    collected parts n = parts.foldl insertVariable fun _ => none := by
  rw [collected, List.take_of_length_le h]

variable {σ : Type} {parts : List Bytes} {position : σ → Nat}

/-- What a step of the iterator leaves when `n` parts were read before it. -/
def Collects (parts : List Bytes) (position : σ → Nat) (n : Nat) :
    Outcome Halt CmdError (Environment ⊕ Environment) → σ → Prop
  | .value (.inl vars), s =>
      vars = collected parts (position s) ∧ n < parts.length ∧ position s = n + 1
  | .value (.inr vars), _ => vars = parts.foldl insertVariable fun _ => none
  | _, _ => False

/-- A kernel that yields the parts of the file one after the other. -/
def YieldsParts (K : Kernel linux σ) (file : File) (parts : List Bytes)
    (position : σ → Nat) : Prop :=
  ∀ s r s', K s (.nextSplit file 0) r s' →
    r = .ok parts[position s]? ∧ position s' = position s + 1

theorem environmentRound_wp {K : Kernel linux σ} {file : File}
    (hyields : YieldsParts K file parts position) {vars : Environment} {s : σ}
    (hvars : vars = collected parts (position s)) :
    (environmentRound file vars).wp K (fun _ _ => True)
      (Collects parts position (position s)) s := by
  rw [environmentRound, Program.bind_eq, Program.wp_call_bind]
  refine ⟨trivial, fun r s' answer => ?_⟩
  obtain ⟨rfl, hposition⟩ := hyields s r s' answer
  cases hitem : parts[position s]? with
  | none =>
      show vars = _
      rw [hvars, collected_of_length_le (List.getElem?_eq_none_iff.mp hitem)]
  | some var =>
      refine ⟨?_, (List.getElem?_eq_some_iff.mp hitem).1, hposition⟩
      rw [hvars, hposition, collected, collected, List.take_add_one, hitem, List.foldl_append]
      rfl

theorem environmentLoop_wp {K : Kernel linux σ} {file : File}
    (hyields : YieldsParts K file parts position) {s : σ} (hs : position s = 0) :
    (Program.iterate (environmentRound file) (fun _ => none) .done).wp K (fun _ _ => True)
      (fun o _ => o = .value (parts.foldl insertVariable fun _ => none)) s := by
  refine ⟨fun vars s => vars = collected parts (position s), ?_, fun vars s' h => ?_⟩
  · show _ = collected parts (position s)
    rw [hs]
    rfl
  refine Program.wp_post (environmentRound_wp hyields h) fun o s'' ho => ?_
  rcases o with (vars' | vars') | e | h
  · exact ho.1
  · exact congrArg Outcome.value ho
  · exact ho.elim
  · exact ho.elim

end Reading

/-- The value in a line of `/etc/environment`. -/
def pathInLine (line : Bytes) : Option Bytes :=
  match stripStart (ascii "PATH=") (trim line) with
  | none => none
  | some pathValue =>
      let pathValue := trimMatches 39 (trimMatches 34 pathValue)
      if pathValue = [] then none else some pathValue

def readContainerPath (containerRoot : Path) : Sys CmdError (Option Bytes) := do
  match ← sys (.readToString (pushPath containerRoot (ascii "etc/environment"))) with
  | .error _ => return none
  | .ok contents =>
      return if isUtf8 contents then (linesOf contents).findSome? pathInLine else none

/-- `env::var("SHELL")`, or `sh`. -/
def shell : Sys CmdError Bytes := do
  match ← sys (.getenv (ascii "SHELL")) with
  | some value => return if isUtf8 value then value else ascii "sh"
  | none => return ascii "sh"

def commandOrShell : Option Bytes → Sys CmdError Bytes
  | some command => return command
  | none => shell

/-- The link to the root directory, which is read at `/proc` whatever
`CNTR_PROC` says. -/
def procRootPath (pid : Pid) : Path := ascii "/proc/" ++ pid.text ++ ascii "/root"

def defaultPath : Bytes :=
  ascii "/usr/local/sbin:/usr/local/bin:/usr/sbin:/usr/bin:/sbin:/bin"

/-- Become the command. It sees the variables of the process with those of
`environment` set over them. -/
def execute (cmd : Cmd) (environment : Environment) : Sys CmdError Empty := do
  match ← sys (.exec cmd.command cmd.arguments environment) with
  | .ok _ => .halt .executed
  | .error source => .fail (.exec cmd.command source)

/-- The closure that runs just before the command: it goes to the container's
root and then takes on the profile. -/
def preExec (containerRoot : Path) (lsmProfile : Option LSMProfile) : Sys IoError Unit := do
  Program.ofExcept .os (← sys (.chroot containerRoot))
  Program.ofExcept id (← sys (.chdir (ascii "/")))
  match lsmProfile with
  | none => return ()
  | some profile => do
      Program.ofExcept id (← sys (.openFile profile.ownPath .write))
      let res ← writeAll (.atPath profile.ownPath .write) (changeProfile profile.label)
      .ofExcept id res

namespace Cmd

def new (command : Option Bytes) (args : List Bytes) (pid : Pid) (home : Option Path) :
    Sys CmdError Cmd := do
  let arguments := if command.isNone then [ascii "-l"] else args
  let command ← commandOrShell command
  let vars ← readEnvironment pid
  let containerRoot ← Program.ofExcept (.readContainerRoot (procRootPath pid))
    (← sys (.readLink (procRootPath pid)))
  return ⟨vars, command, arguments, home, containerRoot⟩

/-- Set a variable unless the container defines it. -/
def envDefault (cmd : Cmd) (key value : Bytes) : Cmd :=
  match cmd.environment key with
  | some _ => cmd
  | none => { cmd with environment := Function.update cmd.environment key (some value) }

/-- The environment of the command that `attach` executes. -/
def overlayEnvironment (cmd : Cmd) (ownPath : Option Bytes) : Environment :=
  let environment :=
    Function.update cmd.environment (ascii "PATH") (some (ownPath.getD defaultPath))
  match cmd.home with
  | none => environment
  | some home => Function.update environment (ascii "HOME") (some home)

def execInOverlay (cmd : Cmd) : Sys CmdError Empty := do
  let ownPath ← sys (.getenv (ascii "PATH"))
  execute cmd (cmd.overlayEnvironment ownPath)

/-- The environment of the command that `exec` executes: `PATH` is only set if
the container has none. -/
def containerEnvironment (cmd : Cmd) : Sys CmdError Environment :=
  match cmd.environment (ascii "PATH") with
  | some _ => return cmd.environment
  | none => do
      let path ← readContainerPath cmd.containerRoot
      return Function.update cmd.environment (ascii "PATH") (some (path.getD defaultPath))

def execInContainer (cmd : Cmd) (lsmProfile : Option LSMProfile) : Sys CmdError Empty := do
  let environment ← cmd.containerEnvironment
  (preExec cmd.containerRoot lsmProfile).mapError (.exec cmd.command)
  execute cmd environment

end Cmd

end Cntr.CommandExecution
