import Cntr.AttachParent
import Cntr.ExecCommand

/-!
The arguments of `cntr attach` and `cntr exec`. Printing help is left out, and
so is what follows once the options are known.
-/

namespace Cntr.CommandLine

open Cntr.ByteText
open Cntr.ApparmorProfile (ApparmorMode)
open Cntr.AttachParent (User)
open Cntr.WhiteSpaceText

/-- What the arguments are looked up in: the known container types, and the
user database, whose errors are told by their texts. -/
structure Lookups (τ : Type) where
  lookupContainerType : Bytes → Option τ
  lookupUser : Bytes → Except Bytes (Option User)

structure AttachOptions (τ : Type) extends AttachParent.AttachOptions where
  containerName : Bytes
  containerTypes : List τ
  apparmorMode : ApparmorMode

structure ExecOptions (τ : Type) extends ExecCommand.ExecOptions where
  containerName : Bytes
  containerTypes : List τ
  apparmorMode : ApparmorMode

inductive Parsed (ω : Type) where
  | help
  | version
  | run (options : ω)

variable {τ : Type}

def parseContainerTypes (lookupContainerType : Bytes → Option τ) (s : Bytes) :
    Except Bytes (List τ) :=
  let tokens := (s.splitOn comma).map trim
  let unknownNames := tokens.filter fun token => (lookupContainerType token).isNone
  if unknownNames ≠ [] then
    .error (ascii "unknown container type(s): " ++ (ascii ", ").intercalate unknownNames)
  else .ok (tokens.filterMap lookupContainerType)

/-- `to_lowercase`, as far as it can lead to an ASCII letter. -/
def toLowercase (s : Bytes) : Bytes :=
  s.map fun b => if 65 ≤ b ∧ b ≤ 90 then b + 32 else b

def parseApparmorMode (s : Bytes) : Except Bytes ApparmorMode :=
  if toLowercase s = ascii "auto" then .ok .auto
  else if toLowercase s = ascii "off" then .ok .off
  else .error (ascii "invalid apparmor mode '" ++ s ++ ascii "', expected 'auto' or 'off'")

def dash : UInt8 := 45

/-- What is done once a loop over the arguments is over. -/
def Parsed.finish {σ ω : Type} (options : σ → Except Bytes ω) :
    Except Bytes (Parsed σ) → Except Bytes (Parsed ω)
  | .error e => .error e
  | .ok .help => .ok .help
  | .ok .version => .ok .version
  | .ok (.run state) =>
      match options state with
      | .error e => .error e
      | .ok options => .ok (.run options)

/-- The variables of the loop in `parse_attach_args`. -/
structure AttachState (τ : Type) where
  containerId : Option Bytes
  containerTypes : List τ
  effectiveUser : Option User
  apparmorMode : ApparmorMode
  commandParts : List Bytes
  inCommand : Bool

def AttachState.initial : AttachState τ where
  containerId := none
  containerTypes := []
  effectiveUser := none
  apparmorMode := .auto
  commandParts := []
  inCommand := false

def attachLoop (lookups : Lookups τ) :
    AttachState τ → List Bytes → Except Bytes (Parsed (AttachState τ))
  | state, [] => .ok (.run state)
  | state, arg :: args =>
      if state.inCommand then
        attachLoop lookups { state with commandParts := state.commandParts ++ [arg] } args
      else if arg = ascii "-h" ∨ arg = ascii "--help" then .ok .help
      else if arg = ascii "-V" ∨ arg = ascii "--version" then .ok .version
      else if arg = ascii "-t" ∨ arg = ascii "--type" then
        match args with
        | [] => .error (ascii "--type requires an argument")
        | typesStr :: args =>
            match parseContainerTypes lookups.lookupContainerType typesStr with
            | .ok types => attachLoop lookups { state with containerTypes := types } args
            | .error e =>
                .error (ascii "invalid --type argument '" ++ typesStr ++ ascii "': " ++ e)
      else if arg = ascii "--effective-user" then
        match args with
        | [] => .error (ascii "--effective-user requires an argument")
        | username :: args =>
            match lookups.lookupUser username with
            | .ok (some user) => attachLoop lookups { state with effectiveUser := some user } args
            | .ok none => .error (ascii "user '" ++ username ++ ascii "' not found")
            | .error e =>
                .error (ascii "failed to lookup user '" ++ username ++ ascii "': " ++ e)
      else if arg = ascii "--apparmor" then
        match args with
        | [] => .error (ascii "--apparmor requires an argument")
        | modeStr :: args =>
            match parseApparmorMode modeStr with
            | .ok mode => attachLoop lookups { state with apparmorMode := mode } args
            | .error e => .error e
      else if arg = ascii "--" then attachLoop lookups { state with inCommand := true } args
      else if arg.head? = some dash then .error (ascii "unknown option: " ++ arg)
      else
        match state.containerId with
        | none => attachLoop lookups { state with containerId := some arg } args
        -- start of the command without `--`
        | some _ =>
            attachLoop lookups { state with
              commandParts := state.commandParts ++ [arg]
              inCommand := true } args

def AttachState.options (state : AttachState τ) : Except Bytes (AttachOptions τ) :=
  match state.containerId with
  | none => .error (ascii "missing required argument: <CONTAINER_ID>")
  | some containerName => .ok {
      command := state.commandParts.head?
      arguments := state.commandParts.tail
      effectiveUser := state.effectiveUser
      containerName := containerName
      containerTypes := state.containerTypes
      apparmorMode := state.apparmorMode }

/-- The options with which `attach` is called. -/
def parseAttachArgs (lookups : Lookups τ) (args : List Bytes) :
    Except Bytes (Parsed (AttachOptions τ)) :=
  Parsed.finish AttachState.options (attachLoop lookups .initial args)

/-- The variables of the loop in `parse_exec_args`. -/
structure ExecState (τ : Type) where
  containerId : Option Bytes
  containerTypes : List τ
  apparmorMode : ApparmorMode
  commandParts : List Bytes
  inCommand : Bool

def ExecState.initial : ExecState τ where
  containerId := none
  containerTypes := []
  apparmorMode := .auto
  commandParts := []
  inCommand := false

def execLoop (lookupContainerType : Bytes → Option τ) :
    ExecState τ → List Bytes → Except Bytes (Parsed (ExecState τ))
  | state, [] => .ok (.run state)
  | state, arg :: args =>
      if state.inCommand then
        execLoop lookupContainerType
          { state with commandParts := state.commandParts ++ [arg] } args
      else if arg = ascii "-h" ∨ arg = ascii "--help" then .ok .help
      else if arg = ascii "-V" ∨ arg = ascii "--version" then .ok .version
      else if arg = ascii "-t" ∨ arg = ascii "--type" then
        match args with
        | [] => .error (ascii "--type requires an argument")
        | typesStr :: args =>
            match parseContainerTypes lookupContainerType typesStr with
            | .ok types => execLoop lookupContainerType { state with containerTypes := types } args
            | .error e =>
                .error (ascii "invalid --type argument '" ++ typesStr ++ ascii "': " ++ e)
      else if arg = ascii "--apparmor" then
        match args with
        | [] => .error (ascii "--apparmor requires an argument")
        | modeStr :: args =>
            match parseApparmorMode modeStr with
            | .ok mode => execLoop lookupContainerType { state with apparmorMode := mode } args
            | .error e => .error e
      else if arg = ascii "--" then
        execLoop lookupContainerType { state with inCommand := true } args
      else if arg.head? = some dash then .error (ascii "unknown option: " ++ arg)
      else
        match state.containerId with
        | none => execLoop lookupContainerType { state with containerId := some arg } args
        | some _ =>
            execLoop lookupContainerType { state with
              commandParts := state.commandParts ++ [arg]
              inCommand := true } args

def ExecState.options (state : ExecState τ) : Except Bytes (ExecOptions τ) :=
  match state.containerId with
  | none => .error (ascii "container ID is required for exec")
  | some containerName => .ok {
      command := state.commandParts.head?
      arguments := state.commandParts.tail
      containerName := containerName
      containerTypes := state.containerTypes
      apparmorMode := state.apparmorMode }

/-- The options with which `exec` is called. -/
def parseExecArgs (lookups : Lookups τ) (args : List Bytes) :
    Except Bytes (Parsed (ExecOptions τ)) :=
  Parsed.finish ExecState.options (execLoop lookups.lookupContainerType .initial args)

end Cntr.CommandLine
