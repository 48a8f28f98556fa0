import Cntr.ParserAgreement

namespace Cntr.ArgumentRoundTrip

open Cntr.ByteText
open Cntr.ApparmorProfile (ApparmorMode)
open Cntr.AttachParent (User)
open Cntr.CommandLine
open Cntr.ParserAgreement
open Cntr.WhiteSpaceText

variable {τ : Type}

/-- A known type as it is written in a list of types. -/
structure TypeName (lookups : Lookups τ) where
  written : Bytes
  type : τ
  noComma : comma ∉ written
  known : lookups.lookupContainerType (trim written) = some type

def modeName : ApparmorMode → Bytes
  | .auto => ascii "auto"
  | .off => ascii "off"

/-- An option with its value; only `attach` has `--effective-user`. -/
inductive Occurrence (lookups : Lookups τ) : Bool → Type where
  | types {knowsUser : Bool} (long : Bool) (first : TypeName lookups)
      (rest : List (TypeName lookups)) : Occurrence lookups knowsUser
  | apparmor {knowsUser : Bool} (value : Bytes) (mode : ApparmorMode)
      (valid : toLowercase value = modeName mode) : Occurrence lookups knowsUser
  | effectiveUser (name : Bytes) (user : User)
      (found : lookups.lookupUser name = .ok (some user)) : Occurrence lookups true

variable {lookups : Lookups τ} {knowsUser : Bool}

namespace Occurrence

def args : Occurrence lookups knowsUser → List Bytes
  | types long first rest =>
      [if long then ascii "--type" else ascii "-t",
        [comma].intercalate ((first :: rest).map TypeName.written)]
  | apparmor value _ _ => [ascii "--apparmor", value]
  | effectiveUser name _ _ => [ascii "--effective-user", name]

def types? : Occurrence lookups knowsUser → Option (List τ)
  | types _ first rest => some ((first :: rest).map TypeName.type)
  | _ => none

def mode? : Occurrence lookups knowsUser → Option ApparmorMode
  | apparmor _ mode _ => some mode
  | _ => none

def user? : Occurrence lookups knowsUser → Option User
  | effectiveUser _ user _ => some user
  | _ => none

/-- The name of the option, as it is written. -/
def option : Occurrence lookups knowsUser → Bytes
  | types long _ _ => if long then ascii "--type" else ascii "-t"
  | apparmor _ _ _ => ascii "--apparmor"
  | effectiveUser _ _ _ => ascii "--effective-user"

def apply (state : AttachState τ) : Occurrence lookups knowsUser → AttachState τ
  | types _ first rest => { state with containerTypes := (first :: rest).map TypeName.type }
  | apparmor _ mode _ => { state with apparmorMode := mode }
  | effectiveUser _ user _ => { state with effectiveUser := some user }

end Occurrence

inductive CommandPart where
  | nothing
  | separated (words : List Bytes)
  | direct (first : Bytes) (rest : List Bytes) (plain : first.head? ≠ some dash)

namespace CommandPart

def args : CommandPart → List Bytes
  | nothing => []
  | separated words => ascii "--" :: words
  | direct first rest _ => first :: rest

def words : CommandPart → List Bytes
  | nothing => []
  | separated words => words
  | direct first rest _ => first :: rest

end CommandPart

/-- The arguments of a command line: options before and after the container. -/
structure Invocation (lookups : Lookups τ) (knowsUser : Bool) where
  front : List (Occurrence lookups knowsUser)
  containerName : Bytes
  plain : containerName.head? ≠ some dash
  back : List (Occurrence lookups knowsUser)
  commandPart : CommandPart

namespace Invocation

def args (invocation : Invocation lookups knowsUser) : List Bytes :=
  invocation.front.flatMap Occurrence.args ++
    invocation.containerName ::
      (invocation.back.flatMap Occurrence.args ++ invocation.commandPart.args)

def occurrences (invocation : Invocation lookups knowsUser) :
    List (Occurrence lookups knowsUser) := invocation.front ++ invocation.back

def last {β : Type} (invocation : Invocation lookups knowsUser)
    (value : Occurrence lookups knowsUser → Option β) : Option β :=
  (invocation.occurrences.filterMap value).getLast?

end Invocation

theorem parseContainerTypes_names (first : TypeName lookups) (rest : List (TypeName lookups)) :
    parseContainerTypes lookups.lookupContainerType
        ([comma].intercalate ((first :: rest).map TypeName.written)) =
      .ok ((first :: rest).map TypeName.type) := by
  have hcomma : ∀ written ∈ (first :: rest).map TypeName.written, comma ∉ written := by
    intro written hwritten
    obtain ⟨name, -, rfl⟩ := List.mem_map.mp hwritten
    exact name.noComma
  have hsplit := List.splitOn_intercalate comma hcomma (by simp)
  have hnone : (((first :: rest).map TypeName.written).map trim).filter
      (fun token => (lookups.lookupContainerType token).isNone) = [] := by
    rw [List.map_map, List.filter_eq_nil_iff]
    intro token htoken
    obtain ⟨name, -, rfl⟩ := List.mem_map.mp htoken
    rw [Function.comp_apply, name.known]
    simp
  have hsome : (((first :: rest).map TypeName.written).map trim).filterMap
      lookups.lookupContainerType = (first :: rest).map TypeName.type := by
    rw [List.map_map, List.filterMap_map, ← List.filterMap_eq_map]
    apply List.filterMap_congr
    intro name _
    exact name.known
  rw [parseContainerTypes, hsplit]
  simp only [hnone, hsome]
  rfl

theorem parseApparmorMode_name {value : Bytes} {mode : ApparmorMode}
    (valid : toLowercase value = modeName mode) : parseApparmorMode value = .ok mode := by
  rw [parseApparmorMode, valid]
  cases mode with
  | auto => rfl
  | off => rfl

section Loop

variable {state : AttachState τ}

theorem attachLoop_occurrence (hstate : state.inCommand = false)
    (occurrence : Occurrence lookups knowsUser) (args : List Bytes) :
    attachLoop lookups state (occurrence.args ++ args) =
      attachLoop lookups (occurrence.apply state) args := by
  have hout : ¬state.inCommand = true := by simp [hstate]
  cases occurrence with
  | types long first rest =>
      have hoption : (if long then ascii "--type" else ascii "-t") = ascii "-t" ∨
          (if long then ascii "--type" else ascii "-t") = ascii "--type" := by
        cases long <;> decide
      have hhelp : ¬((if long then ascii "--type" else ascii "-t") = ascii "-h" ∨
          (if long then ascii "--type" else ascii "-t") = ascii "--help") := by
        cases long <;> decide
      have hversion : ¬((if long then ascii "--type" else ascii "-t") = ascii "-V" ∨
          (if long then ascii "--type" else ascii "-t") = ascii "--version") := by
        cases long <;> decide
      rw [Occurrence.args, List.cons_append, List.cons_append, attachLoop.eq_def]
      dsimp only
      rw [if_neg hout, if_neg hhelp, if_neg hversion, if_pos hoption, parseContainerTypes_names]
      rfl
  | apparmor value mode valid =>
      rw [Occurrence.args, List.cons_append, List.cons_append, attachLoop.eq_def]
      dsimp only
      rw [if_neg hout, if_neg (by decide), if_neg (by decide), if_neg (by decide),
        if_neg (by decide), if_pos rfl, parseApparmorMode_name valid]
      rfl
  | effectiveUser name user found =>
      rw [Occurrence.args, List.cons_append, List.cons_append, attachLoop.eq_def]
      dsimp only
      rw [if_neg hout, if_neg (by decide), if_neg (by decide), if_neg (by decide), if_pos rfl,
        found]
      rfl

theorem apply_inCommand (state : AttachState τ) (occurrence : Occurrence lookups knowsUser) :
    (occurrence.apply state).inCommand = state.inCommand := by
  cases occurrence <;> rfl

theorem apply_containerId (state : AttachState τ) (occurrence : Occurrence lookups knowsUser) :
    (occurrence.apply state).containerId = state.containerId := by
  cases occurrence <;> rfl

theorem apply_commandParts (state : AttachState τ) (occurrence : Occurrence lookups knowsUser) :
    (occurrence.apply state).commandParts = state.commandParts := by
  cases occurrence <;> rfl

theorem attachLoop_occurrences (hstate : state.inCommand = false)
    (occurrences : List (Occurrence lookups knowsUser)) (args : List Bytes) :
    attachLoop lookups state (occurrences.flatMap Occurrence.args ++ args) =
      attachLoop lookups (occurrences.foldl Occurrence.apply state) args := by
  induction occurrences generalizing state with
  | nil => rfl
  | cons occurrence occurrences ih =>
      have hnext : (occurrence.apply state).inCommand = false := by
        rw [apply_inCommand, hstate]
      rw [List.flatMap_cons, List.append_assoc, attachLoop_occurrence hstate, ih hnext]
      rfl

/-- The arm of an argument that is no option. -/
theorem attachLoop_positional (hstate : state.inCommand = false) {arg : Bytes}
    (plain : arg.head? ≠ some dash) (args : List Bytes) :
    attachLoop lookups state (arg :: args) =
      match state.containerId with
      | none => attachLoop lookups { state with containerId := some arg } args
      | some _ =>
          attachLoop lookups { state with
            commandParts := state.commandParts ++ [arg]
            inCommand := true } args := by
  have hne : ∀ text : Bytes, text.head? = some dash → arg ≠ text := by
    rintro text htext rfl
    exact plain htext
  rcases hid : state.containerId with _ | containerName
  all_goals
    rw [attachLoop.eq_def]
    dsimp only
    rw [if_neg (by simp [hstate])]
    simp only [hne (ascii "-h") rfl, hne (ascii "--help") rfl, hne (ascii "-V") rfl,
      hne (ascii "--version") rfl, hne (ascii "-t") rfl, hne (ascii "--type") rfl,
      hne (ascii "--effective-user") rfl, hne (ascii "--apparmor") rfl, hne (ascii "--") rfl,
      plain, or_self, if_false, hid]

theorem attachLoop_commandPart (lookups : Lookups τ) (hstate : state.inCommand = false)
    {containerName : Bytes} (hname : state.containerId = some containerName)
    (hparts : state.commandParts = []) (commandPart : CommandPart) :
    ∃ inCommand, attachLoop lookups state commandPart.args =
      .ok (.run { state with
        commandParts := commandPart.words
        inCommand := inCommand }) := by
  cases commandPart with
  | nothing =>
      refine ⟨false, ?_⟩
      rw [CommandPart.args, attachLoop, CommandPart.words, ← hparts, ← hstate]
  | separated words =>
      refine ⟨true, ?_⟩
      rw [CommandPart.args, attachLoop.eq_def]
      dsimp only
      rw [if_neg (by simp [hstate]), if_neg (by decide), if_neg (by decide), if_neg (by decide),
        if_neg (by decide), if_neg (by decide), if_pos rfl]
      refine (attachLoop_words rfl words).trans ?_
      simp only [hparts, List.nil_append, CommandPart.words]
  | direct first rest plain =>
      refine ⟨true, ?_⟩
      rw [CommandPart.args, attachLoop_positional hstate plain, hname]
      refine (attachLoop_words rfl rest).trans ?_
      simp only [hparts, List.nil_append, List.singleton_append, CommandPart.words]

theorem foldl_last {α β σ : Type} {step : σ → α → σ} {get : σ → Option β}
    {value : α → Option β} (hstep : ∀ s x, get (step s x) = (value x).or (get s))
    (xs : List α) (s : σ) : get (xs.foldl step s) = (xs.filterMap value).getLast?.or (get s) := by
  induction xs generalizing s with
  | nil => rfl
  | cons x xs ih =>
      rw [List.foldl_cons, ih, hstep]
      cases hvalue : value x with
      | none => simp [hvalue]
      | some b =>
          cases hlast : (xs.filterMap value).getLast? with
          | none => simp [hvalue, hlast, List.getLast?_cons]
          | some c => simp [hvalue, hlast, List.getLast?_cons]

theorem foldl_unchanged {α β σ : Type} {step : σ → α → σ} {get : σ → β}
    (hstep : ∀ s x, get (step s x) = get s) (xs : List α) (s : σ) :
    get (xs.foldl step s) = get s := by
  induction xs generalizing s with
  | nil => rfl
  | cons x xs ih => rw [List.foldl_cons, ih, hstep]

end Loop

/-- The variables of the loop at its end. -/
theorem attachLoop_invocation (invocation : Invocation lookups knowsUser) :
    ∃ inCommand, attachLoop lookups .initial invocation.args = .ok (.run {
      containerId := some invocation.containerName
      containerTypes := (invocation.last Occurrence.types?).getD []
      effectiveUser := invocation.last Occurrence.user?
      apparmorMode := (invocation.last Occurrence.mode?).getD .auto
      commandParts := invocation.commandPart.words
      inCommand := inCommand }) := by
  obtain ⟨front, containerName, plain, back, commandPart⟩ := invocation
  let start : AttachState τ := front.foldl Occurrence.apply .initial
  let named : AttachState τ := { start with containerId := some containerName }
  let state : AttachState τ := back.foldl Occurrence.apply named
  have hfront : start.inCommand = false := foldl_unchanged apply_inCommand front _
  have hnone : start.containerId = none := foldl_unchanged apply_containerId front _
  have hparts : start.commandParts = [] := foldl_unchanged apply_commandParts front _
  have hstate : state.inCommand = false := (foldl_unchanged apply_inCommand back named).trans hfront
  have hname : state.containerId = some containerName :=
    foldl_unchanged apply_containerId back named
  have hempty : state.commandParts = [] :=
    (foldl_unchanged apply_commandParts back named).trans hparts
  have hlast : ∀ {β : Type} (get : AttachState τ → Option β)
      (value : Occurrence lookups knowsUser → Option β),
      (∀ s x, get (Occurrence.apply s x) = (value x).or (get s)) → get named = get start →
        get state = ((front ++ back).filterMap value).getLast?.or (get .initial) := by
    intro β get value hstep hnamed
    rw [foldl_last hstep back named, hnamed, foldl_last hstep front .initial,
      List.filterMap_append, List.getLast?_append, Option.or_assoc]
  have htypes := hlast (fun s => some s.containerTypes) Occurrence.types?
    (fun s x => by cases x <;> rfl) rfl
  have hmode := hlast (fun s => some s.apparmorMode) Occurrence.mode?
    (fun s x => by cases x <;> rfl) rfl
  have huser := hlast AttachState.effectiveUser Occurrence.user?
    (fun s x => by cases x <;> rfl) rfl
  rw [Option.or_some, Option.some.injEq] at htypes hmode
  rw [AttachState.initial, Option.or_none] at huser
  obtain ⟨inCommand, hend⟩ := attachLoop_commandPart lookups hstate hname hempty
    commandPart
  refine ⟨inCommand, ?_⟩
  have hargs : attachLoop lookups .initial
      (front.flatMap Occurrence.args ++ containerName ::
        (back.flatMap Occurrence.args ++ commandPart.args)) =
      attachLoop lookups state commandPart.args := by
    have hnamed : named.inCommand = false := hfront
    refine (attachLoop_occurrences rfl front _).trans ?_
    refine (attachLoop_positional hfront plain _).trans ?_
    rw [hnone]
    exact attachLoop_occurrences hnamed back _
  rw [Invocation.args, hargs, hend]
  simp only [hname, htypes, hmode, huser]
  rfl

theorem option_eq (occurrence : Occurrence lookups knowsUser) :
    occurrence.option ∈ [ascii "-t", ascii "--type", ascii "--apparmor"] ∨
      knowsUser = true ∧ occurrence.option = ascii "--effective-user" := by
  cases occurrence with
  | types long first rest =>
      refine .inl (?_ : (if long then ascii "--type" else ascii "-t") ∈ _)
      cases long <;> decide
  | apparmor value mode valid =>
      exact .inl (by decide : ascii "--apparmor" ∈ _)
  | effectiveUser name user found => exact .inr ⟨rfl, rfl⟩

theorem option_mem (occurrence : Occurrence lookups knowsUser) :
    occurrence.option ∈ valueOptions := by
  have hsub : ∀ option ∈ [ascii "-t", ascii "--type", ascii "--apparmor"],
      option ∈ valueOptions := by
    decide
  rcases option_eq occurrence with hoption | ⟨-, hoption⟩
  · exact hsub _ hoption
  · rw [hoption]
    decide

theorem optionWords_occurrences {named : Bool} (occurrences : List (Occurrence lookups knowsUser))
    (args : List Bytes) :
    optionWords named (occurrences.flatMap Occurrence.args ++ args) =
      occurrences.map Occurrence.option ++ optionWords named args := by
  induction occurrences with
  | nil => rfl
  | cons occurrence occurrences ih =>
      obtain ⟨value, hargs⟩ : ∃ value, occurrence.args = [occurrence.option, value] := by
        cases occurrence with
        | types long first rest => exact ⟨_, rfl⟩
        | apparmor value mode valid => exact ⟨_, rfl⟩
        | effectiveUser name user found => exact ⟨_, rfl⟩
      rw [List.flatMap_cons, hargs, List.append_assoc, List.cons_append, List.cons_append,
        List.nil_append, optionWords_value (option_mem occurrence), ih]
      rfl

theorem optionWords_commandPart (commandPart : CommandPart) :
    optionWords true commandPart.args = [] := by
  cases commandPart with
  | nothing => rfl
  | separated words =>
      rw [CommandPart.args, optionWords.eq_def]
      exact if_pos rfl
  | direct first rest plain =>
      have hseparator : first ≠ ascii "--" := by
        rintro rfl
        exact plain rfl
      rw [CommandPart.args, optionWords.eq_def]
      dsimp only
      rw [if_neg hseparator, if_pos plain]
      rfl

/-- The words that stand where an option may stand are the names of the options. -/
theorem optionWords_args (invocation : Invocation lookups knowsUser) :
    optionWords false invocation.args = invocation.occurrences.map Occurrence.option := by
  rw [Invocation.args, optionWords_occurrences, optionWords_container invocation.plain,
    optionWords_occurrences, optionWords_commandPart, List.append_nil, Invocation.occurrences,
    List.map_append]

theorem user_not_mem (invocation : Invocation lookups false) :
    ascii "--effective-user" ∉ optionWords false invocation.args := by
  rw [optionWords_args]
  intro hmem
  obtain ⟨occurrence, -, hoption⟩ := List.mem_map.mp hmem
  rcases option_eq occurrence with hother | ⟨hknows, -⟩
  · rw [hoption] at hother
    exact absurd hother (by decide)
  · cases hknows

/-- `exec` takes the steps of `attach` on an invocation without a user. -/
theorem execLoop_invocation (invocation : Invocation lookups false) :
    ∃ inCommand, execLoop lookups.lookupContainerType .initial invocation.args = .ok (.run {
      containerId := some invocation.containerName
      containerTypes := (invocation.last Occurrence.types?).getD []
      apparmorMode := (invocation.last Occurrence.mode?).getD .auto
      commandParts := invocation.commandPart.words
      inCommand := inCommand }) := by
  obtain ⟨inCommand, hend⟩ := attachLoop_invocation invocation
  have hloop := execLoop_forgetUser lookups .initial invocation.args
    fun _ => user_not_mem invocation
  rw [hend] at hloop
  exact ⟨inCommand, hloop⟩

/-- Both parsers read back the container, the last value of each option and the
words of the command. -/
theorem parse_invocation (lookups : Lookups τ) :
    (∀ invocation : Invocation lookups true,
      parseAttachArgs lookups invocation.args = .ok (.run {
        command := invocation.commandPart.words.head?
        arguments := invocation.commandPart.words.tail
        effectiveUser := invocation.last Occurrence.user?
        containerName := invocation.containerName
        containerTypes := (invocation.last Occurrence.types?).getD []
        apparmorMode := (invocation.last Occurrence.mode?).getD .auto })) ∧
    ∀ invocation : Invocation lookups false,
      parseExecArgs lookups invocation.args = .ok (.run {
        command := invocation.commandPart.words.head?
        arguments := invocation.commandPart.words.tail
        containerName := invocation.containerName
        containerTypes := (invocation.last Occurrence.types?).getD []
        apparmorMode := (invocation.last Occurrence.mode?).getD .auto }) := by
  constructor
  · intro invocation
    obtain ⟨inCommand, hend⟩ := attachLoop_invocation invocation
    rw [parseAttachArgs, hend]
    rfl
  · intro invocation
    obtain ⟨inCommand, hend⟩ := execLoop_invocation invocation
    rw [parseExecArgs, hend]
    rfl

section Example

/-- Two container types and one user. -/
def boxLookups : Lookups Nat where
  lookupContainerType name :=
    if name = ascii "docker" then some 1 else if name = ascii "podman" then some 2 else none
  lookupUser name :=
    if name = ascii "joe" then .ok (some ⟨1000, 100, ascii "/home/joe"⟩) else .ok none

def dockerAndPodman {knowsUser : Bool} : Occurrence boxLookups knowsUser :=
  .types true ⟨ascii "docker", 1, by decide, by decide⟩
    [⟨ascii " podman", 2, by decide, by decide⟩]

def apparmorOff {knowsUser : Bool} : Occurrence boxLookups knowsUser :=
  .apparmor (ascii "OFF") .off (by decide)

def asJoe : Occurrence boxLookups true :=
  .effectiveUser (ascii "joe") ⟨1000, 100, ascii "/home/joe"⟩ rfl

/-- Options on both sides of the container, and words of the command that look like
options. -/
theorem parse_invocation_box :
    parseAttachArgs boxLookups [ascii "--type", ascii "docker, podman", ascii "--effective-user",
        ascii "joe", ascii "box", ascii "--apparmor", ascii "OFF", ascii "--", ascii "ls",
        ascii "-h", ascii "--"] = .ok (.run {
      command := some (ascii "ls")
      arguments := [ascii "-h", ascii "--"]
      effectiveUser := some ⟨1000, 100, ascii "/home/joe"⟩
      containerName := ascii "box"
      containerTypes := [1, 2]
      apparmorMode := .off }) ∧
    parseExecArgs boxLookups [ascii "--apparmor", ascii "OFF", ascii "box", ascii "--type",
        ascii "docker, podman", ascii "ls", ascii "-h"] = .ok (.run {
      command := some (ascii "ls")
      arguments := [ascii "-h"]
      containerName := ascii "box"
      containerTypes := [1, 2]
      apparmorMode := .off }) :=
  ⟨(parse_invocation boxLookups).1 {
      front := [dockerAndPodman, asJoe]
      containerName := ascii "box"
      plain := by decide
      back := [apparmorOff]
      commandPart := .separated [ascii "ls", ascii "-h", ascii "--"] },
    (parse_invocation boxLookups).2 {
      front := [apparmorOff]
      containerName := ascii "box"
      plain := by decide
      back := [dockerAndPodman]
      commandPart := .direct (ascii "ls") [ascii "-h"] (by decide) }⟩

end Example

end Cntr.ArgumentRoundTrip
