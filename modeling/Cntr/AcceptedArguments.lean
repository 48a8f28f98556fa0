import Cntr.ArgumentRoundTrip
import Cntr.TextSplitting
import Mathlib.Data.Set.List

/-!
What the two parsers accept, from the other side: every argument list that leads to
a container is the list of an invocation.
-/

namespace Cntr.AcceptedArguments

open Cntr.ByteText
open Cntr.ApparmorProfile (ApparmorMode)
open Cntr.ArgumentRoundTrip
open Cntr.AttachParent (User)
open Cntr.CommandLine
open Cntr.ParserAgreement
open Cntr.WhiteSpaceText

variable {τ : Type} {lookups : Lookups τ} {knowsUser : Bool}

theorem parseContainerTypes_sound {value : Bytes} {types : List τ}
    (h : parseContainerTypes lookups.lookupContainerType value = .ok types) :
    ∃ (first : TypeName lookups) (rest : List (TypeName lookups)),
      [comma].intercalate ((first :: rest).map TypeName.written) = value ∧
        types = (first :: rest).map TypeName.type := by
  have hknown : ((value.splitOn comma).map trim).filter
      (fun token => (lookups.lookupContainerType token).isNone) = [] := by
    by_contra hunknown
    rw [parseContainerTypes] at h
    simp only [hunknown, ne_eq, not_false_eq_true, if_true] at h
    cases h
  have hnames : ∀ written ∈ value.splitOn comma,
      ∃ name : TypeName lookups, name.written = written := by
    intro written hmem
    have hsome : (lookups.lookupContainerType (trim written)).isSome := by
      by_contra hnone
      have hunknown : trim written ∈ ((value.splitOn comma).map trim).filter
          (fun token => (lookups.lookupContainerType token).isNone) :=
        List.mem_filter.mpr ⟨List.mem_map.mpr ⟨written, hmem, rfl⟩, by simpa using hnone⟩
      rw [hknown] at hunknown
      cases hunknown
    obtain ⟨type, htype⟩ := Option.isSome_iff_exists.mp hsome
    exact ⟨⟨written, type, TextSplitting.not_mem_of_mem_splitOn hmem, htype⟩, rfl⟩
  obtain ⟨names, hwritten⟩ :
      value.splitOn comma ∈ Set.range (List.map (@TypeName.written τ lookups)) := by
    rw [Set.range_list_map]
    exact hnames
  obtain ⟨first, rest, rfl⟩ : ∃ first rest, names = first :: rest := by
    apply List.exists_cons_of_ne_nil
    rintro rfl
    exact List.splitOn_ne_nil comma value hwritten.symm
  have hvalue : [comma].intercalate ((first :: rest).map TypeName.written) = value := by
    rw [hwritten, List.intercalate_splitOn]
  refine ⟨first, rest, hvalue, ?_⟩
  have hagain := parseContainerTypes_names first rest
  rw [hvalue, h] at hagain
  exact Except.ok.inj hagain

theorem parseApparmorMode_sound {value : Bytes} {mode : ApparmorMode}
    (h : parseApparmorMode value = .ok mode) : toLowercase value = modeName mode := by
  rw [parseApparmorMode] at h
  split at h
  · next hauto =>
      cases h
      exact hauto
  · split at h
    · next hoff =>
        cases h
        exact hoff
    · cases h

/-- An option that is accepted is one of the grammar. -/
theorem exists_types (knowsUser : Bool) {arg value : Bytes} {types : List τ}
    (harg : arg = ascii "-t" ∨ arg = ascii "--type")
    (htypes : parseContainerTypes lookups.lookupContainerType value = .ok types) :
    ∃ occurrence : Occurrence lookups knowsUser, occurrence.args = [arg, value] := by
  obtain ⟨first, rest, rfl, -⟩ := parseContainerTypes_sound htypes
  rcases harg with rfl | rfl
  · exact ⟨.types false first rest, rfl⟩
  · exact ⟨.types true first rest, rfl⟩

theorem exists_apparmor (lookups : Lookups τ) (knowsUser : Bool) {value : Bytes}
    {mode : ApparmorMode}
    (hmode : parseApparmorMode value = .ok mode) :
    ∃ occurrence : Occurrence lookups knowsUser,
      occurrence.args = [ascii "--apparmor", value] :=
  ⟨.apparmor value mode (parseApparmorMode_sound hmode), rfl⟩

/-- Without the option for users, that option is not among the words. -/
theorem exists_effectiveUser {name : Bytes} {user : User} {words : List Bytes}
    (huser : lookups.lookupUser name = .ok (some user))
    (hknows : knowsUser = false → ascii "--effective-user" ∉ ascii "--effective-user" :: words) :
    ∃ occurrence : Occurrence lookups knowsUser,
      occurrence.args = [ascii "--effective-user", name] := by
  cases knowsUser with
  | false => exact absurd List.mem_cons_self (hknows rfl)
  | true => exact ⟨.effectiveUser name user huser, rfl⟩

/-- The arguments after the container. -/
theorem attachLoop_named_sound {state final : AttachState τ} {args : List Bytes}
    {containerName : Bytes} (hstate : state.inCommand = false)
    (hname : state.containerId = some containerName)
    (hknows : knowsUser = false → ascii "--effective-user" ∉ optionWords true args)
    (h : attachLoop lookups state args = .ok (.run final)) :
    ∃ (back : List (Occurrence lookups knowsUser)) (commandPart : CommandPart),
      back.flatMap Occurrence.args ++ commandPart.args = args := by
  fun_induction attachLoop lookups state args with
  | case1 state => exact ⟨[], .nothing, rfl⟩
  | case2 state arg args hin ih =>
      rw [hstate] at hin
      cases hin
  | case3 => cases h
  | case4 => cases h
  | case5 => cases h
  | case6 state arg hin help version types typesStr args found htypes ih =>
      obtain ⟨occurrence, hargs⟩ := exists_types knowsUser types htypes
      rw [optionWords_value (mem_valueOptions_types types)] at hknows
      obtain ⟨back, commandPart, rfl⟩ := ih hstate hname
        (fun hnot hmem => hknows hnot (List.mem_cons_of_mem _ hmem)) h
      exact ⟨occurrence :: back, commandPart, by simp [hargs]⟩
  | case7 => cases h
  | case8 => cases h
  | case9 state hin username args user huser help version types ih =>
      rw [optionWords_value (by decide)] at hknows
      obtain ⟨occurrence, hargs⟩ := exists_effectiveUser huser hknows
      obtain ⟨back, commandPart, rfl⟩ := ih hstate hname
        (fun hnot hmem => hknows hnot (List.mem_cons_of_mem _ hmem)) h
      exact ⟨occurrence :: back, commandPart, by simp [hargs]⟩
  | case10 => cases h
  | case11 => cases h
  | case12 => cases h
  | case13 state hin modeStr args mode hmode help version types user ih =>
      obtain ⟨occurrence, hargs⟩ := exists_apparmor lookups knowsUser hmode
      rw [optionWords_value (by decide)] at hknows
      obtain ⟨back, commandPart, rfl⟩ := ih hstate hname
        (fun hnot hmem => hknows hnot (List.mem_cons_of_mem _ hmem)) h
      exact ⟨occurrence :: back, commandPart, by simp [hargs]⟩
  | case14 => cases h
  | case15 state args hin help version types user apparmor ih =>
      exact ⟨[], .separated args, rfl⟩
  | case16 => cases h
  | case17 state arg args hin help version types user apparmor separator plain hnone ih =>
      rw [hnone] at hname
      cases hname
  | case18 state arg args hin help version types user apparmor separator plain name hsome ih =>
      exact ⟨[], .direct arg args plain, rfl⟩

/-- The arguments of a command line that names a container. -/
theorem attachLoop_sound {state final : AttachState τ} {args : List Bytes}
    {containerName : Bytes} (hstate : state.inCommand = false) (hnone : state.containerId = none)
    (hknows : knowsUser = false → ascii "--effective-user" ∉ optionWords false args)
    (h : attachLoop lookups state args = .ok (.run final))
    (hname : final.containerId = some containerName) :
    ∃ invocation : Invocation lookups knowsUser, invocation.args = args := by
  fun_induction attachLoop lookups state args with
  | case1 state =>
      cases h
      rw [hnone] at hname
      cases hname
  | case2 state arg args hin ih =>
      rw [hstate] at hin
      cases hin
  | case3 => cases h
  | case4 => cases h
  | case5 => cases h
  | case6 state arg hin help version types typesStr args found htypes ih =>
      obtain ⟨occurrence, hargs⟩ := exists_types knowsUser types htypes
      rw [optionWords_value (mem_valueOptions_types types)] at hknows
      obtain ⟨invocation, rfl⟩ := ih hstate hnone
        (fun hnot hmem => hknows hnot (List.mem_cons_of_mem _ hmem)) h
      refine ⟨{ invocation with front := occurrence :: invocation.front }, ?_⟩
      simp [Invocation.args, hargs]
  | case7 => cases h
  | case8 => cases h
  | case9 state hin username args user huser help version types ih =>
      rw [optionWords_value (by decide)] at hknows
      obtain ⟨occurrence, hargs⟩ := exists_effectiveUser huser hknows
      obtain ⟨invocation, rfl⟩ := ih hstate hnone
        (fun hnot hmem => hknows hnot (List.mem_cons_of_mem _ hmem)) h
      refine ⟨{ invocation with front := occurrence :: invocation.front }, ?_⟩
      simp [Invocation.args, hargs]
  | case10 => cases h
  | case11 => cases h
  | case12 => cases h
  | case13 state hin modeStr args mode hmode help version types user ih =>
      obtain ⟨occurrence, hargs⟩ := exists_apparmor lookups knowsUser hmode
      rw [optionWords_value (by decide)] at hknows
      obtain ⟨invocation, rfl⟩ := ih hstate hnone
        (fun hnot hmem => hknows hnot (List.mem_cons_of_mem _ hmem)) h
      refine ⟨{ invocation with front := occurrence :: invocation.front }, ?_⟩
      simp [Invocation.args, hargs]
  | case14 => cases h
  | case15 state args hin help version types user apparmor ih =>
      rw [attachLoop_words rfl] at h
      cases h
      rw [hnone] at hname
      cases hname
  | case16 => cases h
  | case17 state arg args hin help version types user apparmor separator plain hfirst ih =>
      rw [optionWords_container plain] at hknows
      obtain ⟨back, commandPart, rfl⟩ :=
        @attachLoop_named_sound τ lookups knowsUser { state with containerId := some arg } final
          args arg hstate rfl hknows h
      exact ⟨⟨[], arg, plain, back, commandPart⟩, rfl⟩
  | case18 state arg args hin help version types user apparmor separator plain name hsome ih =>
      rw [hnone] at hsome
      cases hsome

/-- The invocation that a parsed argument list is of, and the variables that it
leads to. -/
theorem exists_invocation (knowsUser : Bool) {final : AttachState τ} {args : List Bytes}
    {containerName : Bytes}
    (hknows : knowsUser = false → ascii "--effective-user" ∉ optionWords false args)
    (h : attachLoop lookups .initial args = .ok (.run final))
    (hname : final.containerId = some containerName) :
    ∃ (invocation : Invocation lookups knowsUser) (inCommand : Bool),
      invocation.args = args ∧ final = {
        containerId := some invocation.containerName
        containerTypes := (invocation.last Occurrence.types?).getD []
        effectiveUser := invocation.last Occurrence.user?
        apparmorMode := (invocation.last Occurrence.mode?).getD .auto
        commandParts := invocation.commandPart.words
        inCommand := inCommand } := by
  obtain ⟨invocation, rfl⟩ := attachLoop_sound rfl rfl hknows h hname
  obtain ⟨inCommand, hend⟩ := attachLoop_invocation invocation
  rw [hend] at h
  cases h
  exact ⟨invocation, inCommand, rfl, rfl⟩

theorem finish_run {σ ω : Type} {options : σ → Except Bytes ω}
    {parsed : Except Bytes (Parsed (σ))} {r : ω}
    (h : Parsed.finish options parsed = .ok (.run r)) :
    ∃ state, parsed = .ok (.run state) ∧ options state = .ok r := by
  rw [Parsed.finish.eq_def] at h
  split at h
  · cases h
  · cases h
  · cases h
  · next state =>
      split at h
      · cases h
      · next hoptions =>
          cases h
          exact ⟨state, rfl, hoptions⟩

/-- What `exec` accepts, `attach` accepts too, and there is no user in it. -/
theorem attachLoop_of_execLoop {final : ExecState τ} {args : List Bytes}
    (h : execLoop lookups.lookupContainerType .initial args = .ok (.run final)) :
    ascii "--effective-user" ∉ optionWords false args ∧
      ∃ final' : AttachState τ, attachLoop lookups .initial args = .ok (.run final') ∧
        forgetUser final' = final := by
  have hnot : ascii "--effective-user" ∉ optionWords false args :=
    fun hmem => execLoop_refuses .initial args rfl hmem final h
  refine ⟨hnot, ?_⟩
  have hloop : execLoop lookups.lookupContainerType .initial args =
      Parsed.finish (fun final => .ok (forgetUser final)) (attachLoop lookups .initial args) :=
    execLoop_forgetUser lookups .initial args fun _ => hnot
  obtain ⟨final', hattach, hforget⟩ := finish_run (hloop.symm.trans h)
  exact ⟨final', hattach, Except.ok.inj hforget⟩

/-- Each parser accepts the argument lists of the grammar and no other, and what it
makes of them are the options of the invocation. -/
theorem accepted_iff (lookups : Lookups τ) (args : List Bytes) :
    (∀ options, parseAttachArgs lookups args = .ok (.run options) ↔
      ∃ invocation : Invocation lookups true, invocation.args = args ∧
        options = {
          command := invocation.commandPart.words.head?
          arguments := invocation.commandPart.words.tail
          effectiveUser := invocation.last Occurrence.user?
          containerName := invocation.containerName
          containerTypes := (invocation.last Occurrence.types?).getD []
          apparmorMode := (invocation.last Occurrence.mode?).getD .auto }) ∧
    ∀ options, parseExecArgs lookups args = .ok (.run options) ↔
      ∃ invocation : Invocation lookups false, invocation.args = args ∧
        options = {
          command := invocation.commandPart.words.head?
          arguments := invocation.commandPart.words.tail
          containerName := invocation.containerName
          containerTypes := (invocation.last Occurrence.types?).getD []
          apparmorMode := (invocation.last Occurrence.mode?).getD .auto } := by
  refine ⟨fun options => ⟨fun h => ?_, ?_⟩, fun options => ⟨fun h => ?_, ?_⟩⟩
  · obtain ⟨state, hparsed, hoptions⟩ := finish_run h
    have hnamed : ∃ containerName, state.containerId = some containerName := by
      rw [AttachState.options] at hoptions
      split at hoptions
      · cases hoptions
      · next containerName hname => exact ⟨containerName, hname⟩
    obtain ⟨containerName, hname⟩ := hnamed
    obtain ⟨invocation, inCommand, hargs, rfl⟩ :=
      exists_invocation true (fun hknows => by cases hknows) hparsed hname
    cases hoptions
    exact ⟨invocation, hargs, rfl⟩
  · rintro ⟨invocation, rfl, rfl⟩
    obtain ⟨inCommand, hend⟩ := attachLoop_invocation invocation
    rw [parseAttachArgs, hend]
    rfl
  · obtain ⟨state, hparsed, hoptions⟩ := finish_run h
    have hnamed : ∃ containerName, state.containerId = some containerName := by
      rw [ExecState.options] at hoptions
      split at hoptions
      · cases hoptions
      · next containerName hname => exact ⟨containerName, hname⟩
    obtain ⟨containerName, hname⟩ := hnamed
    obtain ⟨hnot, final, hattach, rfl⟩ := attachLoop_of_execLoop hparsed
    obtain ⟨invocation, inCommand, hargs, rfl⟩ :=
      exists_invocation false (fun _ => hnot) hattach hname
    cases hoptions
    exact ⟨invocation, hargs, rfl⟩
  · rintro ⟨invocation, rfl, rfl⟩
    obtain ⟨inCommand, hend⟩ := execLoop_invocation invocation
    rw [parseExecArgs, hend]
    rfl

end Cntr.AcceptedArguments
