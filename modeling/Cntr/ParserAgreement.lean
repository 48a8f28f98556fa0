import Cntr.CommandLine

/-!
The two parsers of arguments side by side. Their loops are written separately and
differ in one arm: on a command line on which `--effective-user` is not given as an
option, `exec` takes the steps of `attach`, and on any other it does not come to an end.
-/

namespace Cntr.ParserAgreement

open Cntr.ByteText
open Cntr.CommandLine

variable {τ : Type} {lookups : Lookups τ}

/-- The options that take the next word as their value. -/
def valueOptions : List Bytes :=
  [ascii "-t", ascii "--type", ascii "--effective-user", ascii "--apparmor"]

/-- The words of a command line that stand where an option may stand: neither
values of options, nor the container, nor words of the command. `named` tells
that the container came before. -/
def optionWords : Bool → List Bytes → List Bytes
  | _, [] => []
  | named, arg :: args =>
      if arg = ascii "--" then []
      else if arg.head? ≠ some dash then
        if named then [] else optionWords true args
      else if arg ∈ valueOptions then
        match args with
        | [] => [arg]
        | _ :: args => arg :: optionWords named args
      else arg :: optionWords named args

/-- The same outcome up to the text of an error. -/
inductive SameOutcome : Except Bytes (Parsed (AttachOptions τ)) →
    Except Bytes (Parsed (ExecOptions τ)) → Prop where
  | help : SameOutcome (.ok .help) (.ok .help)
  | version : SameOutcome (.ok .version) (.ok .version)
  | failed (e e' : Bytes) : SameOutcome (.error e) (.error e')
  | run {attach : AttachOptions τ} {exec : ExecOptions τ}
      (containerName : attach.containerName = exec.containerName)
      (containerTypes : attach.containerTypes = exec.containerTypes)
      (apparmorMode : attach.apparmorMode = exec.apparmorMode)
      (command : attach.command = exec.command)
      (arguments : attach.arguments = exec.arguments) :
      SameOutcome (.ok (.run attach)) (.ok (.run exec))

/-- The variables that the two loops have in common. -/
def forgetUser (state : AttachState τ) : ExecState τ where
  containerId := state.containerId
  containerTypes := state.containerTypes
  apparmorMode := state.apparmorMode
  commandParts := state.commandParts
  inCommand := state.inCommand

theorem valueOptions_dash :
    ∀ arg ∈ valueOptions, arg ≠ ascii "--" ∧ arg.head? = some dash := by
  decide

theorem optionWords_value {named : Bool} {arg : Bytes} (harg : arg ∈ valueOptions) (value : Bytes)
    (args : List Bytes) :
    optionWords named (arg :: value :: args) = arg :: optionWords named args := by
  obtain ⟨hseparator, hdash⟩ := valueOptions_dash arg harg
  rw [optionWords.eq_def]
  simp only [hseparator, hdash, harg, ne_eq, not_true_eq_false, if_true, if_false]

theorem optionWords_missing {named : Bool} {arg : Bytes} (harg : arg ∈ valueOptions) :
    optionWords named [arg] = [arg] := by
  obtain ⟨hseparator, hdash⟩ := valueOptions_dash arg harg
  rw [optionWords.eq_def]
  simp only [hseparator, hdash, harg, ne_eq, not_true_eq_false, if_true, if_false]

theorem optionWords_container {arg : Bytes} (plain : arg.head? ≠ some dash) (args : List Bytes) :
    optionWords false (arg :: args) = optionWords true args := by
  have hseparator : arg ≠ ascii "--" := by
    rintro rfl
    exact plain rfl
  rw [optionWords.eq_def]
  simp only [hseparator, plain, ne_eq, not_false_eq_true, if_true, if_false, Bool.false_eq_true]

theorem mem_valueOptions_types {arg : Bytes} (harg : arg = ascii "-t" ∨ arg = ascii "--type") :
    arg ∈ valueOptions := by
  rcases harg with rfl | rfl <;> decide

/-- Words of the command are taken as they are. -/
theorem attachLoop_words {state : AttachState τ} (hstate : state.inCommand = true)
    (words : List Bytes) :
    attachLoop lookups state words =
      .ok (.run { state with commandParts := state.commandParts ++ words }) := by
  induction words generalizing state with
  | nil => rw [attachLoop, List.append_nil]
  | cons word words ih =>
      have hword : ({ state with commandParts := state.commandParts ++ [word] } :
          AttachState τ).inCommand = true := hstate
      rw [attachLoop.eq_def]
      dsimp only
      rw [if_pos hstate, ih hword]
      simp only [List.append_assoc, List.singleton_append]

/-- Where the user is not given as an option, a run of the one loop is a run of the other. -/
theorem execLoop_forgetUser (lookups : Lookups τ) (state : AttachState τ) (args : List Bytes)
    (hnot : state.inCommand = false →
      ascii "--effective-user" ∉ optionWords state.containerId.isSome args) :
    execLoop lookups.lookupContainerType (forgetUser state) args =
      Parsed.finish (fun final => .ok (forgetUser final)) (attachLoop lookups state args) := by
  fun_induction attachLoop lookups state args with
  | case1 state => rfl
  | case2 state arg args hin ih =>
      have hword : (forgetUser state).inCommand = true := hin
      rw [execLoop.eq_def]
      dsimp only
      rw [if_pos hword]
      exact ih fun hout => absurd hin (by rw [show state.inCommand = false from hout]; decide)
  | case3 state arg args hin help =>
      have hout : ¬(forgetUser state).inCommand = true := hin
      rw [execLoop.eq_def]
      dsimp only
      rw [if_neg hout, if_pos help]
      rfl
  | case4 state arg args hin help version =>
      have hout : ¬(forgetUser state).inCommand = true := hin
      rw [execLoop.eq_def]
      dsimp only
      rw [if_neg hout, if_neg help, if_pos version]
      rfl
  | case5 state arg hin help version types =>
      have hout : ¬(forgetUser state).inCommand = true := hin
      rw [execLoop.eq_def]
      dsimp only
      rw [if_neg hout, if_neg help, if_neg version, if_pos types]
      rfl
  | case6 state arg hin help version types typesStr args found htypes ih =>
      have hout : ¬(forgetUser state).inCommand = true := hin
      rw [optionWords_value (mem_valueOptions_types types)] at hnot
      rw [execLoop.eq_def]
      dsimp only
      rw [if_neg hout, if_neg help, if_neg version, if_pos types, htypes]
      exact ih fun hout hmem => hnot hout (List.mem_cons_of_mem _ hmem)
  | case7 state arg hin help version types typesStr args e htypes =>
      have hout : ¬(forgetUser state).inCommand = true := hin
      rw [execLoop.eq_def]
      dsimp only
      rw [if_neg hout, if_neg help, if_neg version, if_pos types, htypes]
      rfl
  | case8 state hin =>
      rw [optionWords_missing (by decide)] at hnot
      exact absurd List.mem_cons_self (hnot (by simpa using hin))
  | case9 state hin _ _ _ username args user huser ih =>
      rw [optionWords_value (by decide)] at hnot
      exact absurd List.mem_cons_self (hnot (by simpa using hin))
  | case10 state hin _ _ _ username args huser =>
      rw [optionWords_value (by decide)] at hnot
      exact absurd List.mem_cons_self (hnot (by simpa using hin))
  | case11 state hin _ _ _ username args e huser =>
      rw [optionWords_value (by decide)] at hnot
      exact absurd List.mem_cons_self (hnot (by simpa using hin))
  | case12 state hin help version types _ =>
      have hout : ¬(forgetUser state).inCommand = true := hin
      rw [execLoop.eq_def]
      dsimp only
      rw [if_neg hout, if_neg help, if_neg version, if_neg types, if_pos rfl]
      rfl
  | case13 state hin modeStr args mode hmode help version types _ ih =>
      have hout : ¬(forgetUser state).inCommand = true := hin
      rw [optionWords_value (by decide)] at hnot
      rw [execLoop.eq_def]
      dsimp only
      rw [if_neg hout, if_neg help, if_neg version, if_neg types, if_pos rfl, hmode]
      exact ih fun hout hmem => hnot hout (List.mem_cons_of_mem _ hmem)
  | case14 state hin modeStr args e hmode help version types _ =>
      have hout : ¬(forgetUser state).inCommand = true := hin
      rw [execLoop.eq_def]
      dsimp only
      rw [if_neg hout, if_neg help, if_neg version, if_neg types, if_pos rfl, hmode]
      rfl
  | case15 state args hin help version types _ apparmor ih =>
      have hout : ¬(forgetUser state).inCommand = true := hin
      rw [execLoop.eq_def]
      dsimp only
      rw [if_neg hout, if_neg help, if_neg version, if_neg types, if_neg apparmor, if_pos rfl]
      exact ih fun hout => absurd hout (by simp)
  | case16 state arg args hin help version types _ apparmor separator dash =>
      have hout : ¬(forgetUser state).inCommand = true := hin
      rw [execLoop.eq_def]
      dsimp only
      rw [if_neg hout, if_neg help, if_neg version, if_neg types, if_neg apparmor,
        if_neg separator, if_pos dash]
      rfl
  | case17 state arg args hin help version types _ apparmor separator plain hname ih =>
      have hout : ¬(forgetUser state).inCommand = true := hin
      have hnone : (forgetUser state).containerId = none := hname
      rw [hname, Option.isSome_none, optionWords_container plain] at hnot
      rw [execLoop.eq_def]
      dsimp only
      rw [if_neg hout, if_neg help, if_neg version, if_neg types, if_neg apparmor,
        if_neg separator, if_neg plain, hnone]
      exact ih hnot
  | case18 state arg args hin help version types _ apparmor separator plain name hname ih =>
      have hout : ¬(forgetUser state).inCommand = true := hin
      rw [execLoop.eq_def]
      dsimp only
      rw [if_neg hout, if_neg help, if_neg version, if_neg types, if_neg apparmor,
        if_neg separator, if_neg plain]
      split
      · next hnone => cases hname.symm.trans hnone
      · exact ih fun hout => absurd hout (by simp)

/-- Where the user is given as an option, `exec` does not get to the end. -/
theorem execLoop_refuses {lookupContainerType : Bytes → Option τ} (state : ExecState τ)
    (args : List Bytes) (hstate : state.inCommand = false)
    (hmem : ascii "--effective-user" ∈ optionWords state.containerId.isSome args)
    (final : ExecState τ) : execLoop lookupContainerType state args ≠ .ok (.run final) := by
  fun_induction execLoop lookupContainerType state args with
  | case1 state => exact absurd hmem List.not_mem_nil
  | case2 state arg args hin ih => exact absurd hin (by rw [hstate]; decide)
  | case3 =>
      intro h
      cases h
  | case4 =>
      intro h
      cases h
  | case5 =>
      intro h
      cases h
  | case6 state arg hin help version types typesStr args found htypes ih =>
      rw [optionWords_value (mem_valueOptions_types types)] at hmem
      apply ih hstate
      refine (List.mem_cons.mp hmem).resolve_left ?_
      rintro rfl
      exact absurd types (by decide)
  | case7 =>
      intro h
      cases h
  | case8 =>
      intro h
      cases h
  | case9 state hin modeStr args mode hmode help version types ih =>
      rw [optionWords_value (by decide)] at hmem
      exact ih hstate ((List.mem_cons.mp hmem).resolve_left (by decide))
  | case10 =>
      intro h
      cases h
  | case11 state args hin help version types apparmor ih =>
      rw [optionWords.eq_def] at hmem
      exact absurd hmem List.not_mem_nil
  | case12 =>
      intro h
      cases h
  | case13 state arg args hin help version types apparmor separator plain hname ih =>
      rw [hname, Option.isSome_none, optionWords_container plain] at hmem
      exact ih hstate hmem
  | case14 state arg args hin help version types apparmor separator plain name hname ih =>
      rw [hname, Option.isSome_some, optionWords.eq_def] at hmem
      simp only [separator, plain, ne_eq, not_false_eq_true, if_true, if_false,
        List.not_mem_nil] at hmem

theorem finish_same (result : Except Bytes (Parsed (AttachState τ))) :
    SameOutcome (Parsed.finish AttachState.options result)
      (Parsed.finish ExecState.options
        (Parsed.finish (fun final => .ok (forgetUser final)) result)) := by
  rcases result with e | (_ | _ | state)
  · exact .failed e e
  · exact .help
  · exact .version
  · cases hname : state.containerId with
    | none =>
        simp only [Parsed.finish, AttachState.options, ExecState.options, forgetUser, hname]
        exact .failed _ _
    | some containerName =>
        simp only [Parsed.finish, AttachState.options, ExecState.options, forgetUser, hname]
        exact .run rfl rfl rfl rfl rfl

/-- Unless `--effective-user` is given as an option, `attach` and `exec` read
every command line alike. -/
theorem parsers_agree (lookups : Lookups τ) (args : List Bytes)
    (hnot : ascii "--effective-user" ∉ optionWords false args) :
    SameOutcome (parseAttachArgs lookups args) (parseExecArgs lookups args) := by
  have hloop : execLoop lookups.lookupContainerType .initial args =
      Parsed.finish (fun final => .ok (forgetUser final)) (attachLoop lookups .initial args) :=
    execLoop_forgetUser lookups .initial args fun _ => hnot
  rw [parseAttachArgs, parseExecArgs, hloop]
  exact finish_same _

/-- A command line whose command, and only it, has an `--effective-user`. -/
def userInCommand : List Bytes :=
  [ascii "--apparmor", ascii "off", ascii "box", ascii "--", ascii "--effective-user",
    ascii "root"]

/-- Both accept it. -/
theorem parsers_agree_userInCommand :
    SameOutcome
      (parseAttachArgs (τ := Unit) ⟨fun _ => none, fun _ => .ok none⟩ userInCommand)
      (parseExecArgs ⟨fun _ => none, fun _ => .ok none⟩ userInCommand) ∧
    parseAttachArgs (τ := Unit) ⟨fun _ => none, fun _ => .ok none⟩ userInCommand =
      .ok (.run {
        command := some (ascii "--effective-user")
        arguments := [ascii "root"]
        effectiveUser := none
        containerName := ascii "box"
        containerTypes := []
        apparmorMode := .off }) ∧
    parseExecArgs (τ := Unit) ⟨fun _ => none, fun _ => .ok none⟩ userInCommand =
      .ok (.run {
        command := some (ascii "--effective-user")
        arguments := [ascii "root"]
        containerName := ascii "box"
        containerTypes := []
        apparmorMode := .off }) :=
  ⟨parsers_agree _ userInCommand (by decide), rfl, rfl⟩

end Cntr.ParserAgreement
