import Cntr.ConfinementSteps

namespace Cntr.EnteredNamespaces

open Cntr.ByteText
open Cntr.CallTree
open Cntr.SystemCalls
open Cntr.ApparmorProfile
open Cntr.CallsMade
open Cntr.CommandExecution
open Cntr.ConfinementSteps
open Cntr.ContainerSetup
open Cntr.NamespaceFiles
open Cntr.WholeWrites

theorem not_announces_of_quiet {c : Syscall} (h : Quiet c) : ¬Announces c := by
  cases c <;> first | exact h.elim | exact id

section Calculus

variable {ε ε' α β : Type} {inExec : Bool} {nss : Namespaces} {targetPid : Pid}
  {G : Log → Syscall → Prop} {P : α → Log → Prop} {R : β → Log → Prop} {log : Log}

theorem reaches_bind {p : Sys ε α} {f : α → Sys ε β}
    (hp : p.wp (namespaced nss targetPid) G (Reaches inExec P) log)
    (hf : ∀ a log', P a log' → (f a).wp (namespaced nss targetPid) G (Reaches inExec R) log') :
    (p.bind f).wp (namespaced nss targetPid) G (Reaches inExec R) log := by
  refine Program.wp_seq hp fun o log' ho => ?_
  cases o with
  | value a => exact hf a log' ho
  | error e => exact ho
  | halted h => exact ho

theorem reaches_mapError {p : Sys ε α} {f : ε → ε'}
    (hp : p.wp (namespaced nss targetPid) G (Reaches inExec P) log) :
    (p.mapError f).wp (namespaced nss targetPid) G (Reaches inExec P) log := by
  rw [Program.wp_mapError]
  refine Program.wp_post hp fun o log' ho => ?_
  cases o <;> exact ho

theorem reaches_mono {P' : α → Log → Prop} {p : Sys ε α}
    (hp : p.wp (namespaced nss targetPid) G (Reaches inExec P) log)
    (hP : ∀ a log', P a log' → P' a log') :
    p.wp (namespaced nss targetPid) G (Reaches inExec P') log := by
  refine Program.wp_post hp fun o log' ho => ?_
  cases o with
  | value a => exact hP a log' ho
  | error e => exact ho
  | halted h => exact ho

variable {taken : List Step} {profile : Option LSMProfile}

/-- A part of the program that only makes quiet calls takes no step. -/
theorem reaches_quiet (hG : Allows inExec G) {p : Sys ε α}
    (hp : p.Within Quiet fun _ => True) (h : Reached inExec taken profile log) :
    p.wp (namespaced nss targetPid) G
      (Reaches inExec fun _ log' => Reached inExec taken profile log') log := by
  refine Program.wp_post (hp.wp (fun _ c h hc => ?_) (fun log c r log' h hc hcall => ?_) h)
    fun o log' ho => ho.1.reaches fun _ _ => ho.1
  · exact hG _ c h.calm (not_announces_of_quiet hc)
  · obtain ⟨rfl, -⟩ := hcall
    exact h.quiet _ _ hc

/-- A step is taken, or it fails and the program ends with its error. -/
theorem reaches_step (c : Syscall) (s : Step) {ε₀ : Type} {f : ε₀ → ε}
    {g : c.Answer → Except ε₀ Unit} {k : Unit → Sys ε β} (hG : G log c)
    (h : Reached inExec taken profile log)
    (hstep : ∀ r, g r = .ok () → stepOf ⟨c, r⟩ = some s ∧ ¬FailedStep inExec ⟨c, r⟩)
    (hexec : ∀ r, ¬IsExec ⟨c, r⟩)
    (hwritten : ∀ r path, writtenBy (.atPath path .write) ⟨c, r⟩ = [])
    (hk : ∀ log', Reached inExec (taken ++ [s]) profile log' →
      (k ()).wp (namespaced nss targetPid) G (Reaches inExec R) log') :
    ((sys c).bind fun r => (Program.ofExcept f (g r)).bind k).wp (namespaced nss targetPid) G
      (Reaches inExec R) log := by
  rw [Program.wp_call_recording]
  refine ⟨hG, fun r _ => ?_⟩
  cases hr : g r with
  | error e => exact h.failed (hexec r) (f e)
  | ok a =>
      obtain ⟨hstep, hcalm⟩ := hstep r hr
      have hnext := h.snoc _ hcalm (hexec r) (hwritten r)
      rw [hstep] at hnext
      exact hk _ hnext

theorem reaches_lastStep (c : Syscall) (s : Step) {ε₀ : Type} {f : ε₀ → ε}
    {g : c.Answer → Except ε₀ Unit} (hG : G log c) (h : Reached inExec taken profile log)
    (hstep : ∀ r, g r = .ok () → stepOf ⟨c, r⟩ = some s ∧ ¬FailedStep inExec ⟨c, r⟩)
    (hexec : ∀ r, ¬IsExec ⟨c, r⟩)
    (hwritten : ∀ r path, writtenBy (.atPath path .write) ⟨c, r⟩ = []) :
    ((sys c).bind fun r => Program.ofExcept f (g r)).wp (namespaced nss targetPid) G
      (Reaches inExec fun _ log' => Reached inExec (taken ++ [s]) profile log') log := by
  have hdone : (fun r => (Program.ofExcept f (g r)).bind .done) =
      fun r => (Program.ofExcept f (g r) : Sys ε Unit) := funext fun r => Program.bind_done _
  rw [← hdone]
  exact reaches_step c s hG h hstep hexec hwritten fun _ h' => h'

theorem reaches_check (hG : Allows inExec G) (c : Syscall) {ε₀ : Type}
    {f : ε₀ → ε} {g : c.Answer → Except ε₀ α} {k : α → Sys ε β} (hc : Quiet c)
    (h : Reached inExec taken profile log)
    (hk : ∀ a log', Reached inExec taken profile log' →
      (k a).wp (namespaced nss targetPid) G (Reaches inExec R) log') :
    ((sys c).bind fun r => (Program.ofExcept f (g r)).bind k).wp (namespaced nss targetPid) G
      (Reaches inExec R) log := by
  rw [Program.wp_call_recording]
  refine ⟨hG _ c h.calm (not_announces_of_quiet hc), fun r _ => ?_⟩
  have hnext := h.quiet c r hc
  cases g r with
  | error e => exact hnext.reaches fun _ ha => by cases ha
  | ok a => exact hk a _ hnext

end Calculus

section Shared

variable {ε : Type} {inExec : Bool} {nss : Namespaces} {targetPid : Pid}
  {G : Log → Syscall → Prop} {taken : List Step} {profile : Option LSMProfile} {log : Log}

theorem supportedNamespaces_wp (hG : Allows inExec G)
    (h : Reached inExec taken profile log) :
    supportedNamespaces.wp (namespaced nss targetPid) G
      (Reaches inExec fun names log' =>
        (∀ kind : Kind, kind.name ∈ names ↔ nss.supported kind = true) ∧
          Reached inExec taken profile log') log := by
  rw [supportedNamespaces, Program.bind_eq, Program.wp_call_recording]
  refine ⟨hG _ _ h.calm id, fun r hpossible => ?_⟩
  have hnext := h.quiet (.readDir namespaceDir) r trivial
  cases r with
  | error e => exact hnext.reaches fun _ ha => by cases ha
  | ok entries =>
      simp only [Program.ofExcept, Program.bind_eq, Program.done_bind]
      cases hnames : namespaceNames entries with
      | error e => exact hnext.reaches fun _ ha => by cases ha
      | ok names =>
          refine ⟨fun kind => ?_, hnext⟩
          rw [name_mem_namespaceNames hnames]
          exact hpossible rfl kind

theorem isSame_wp (hG : Allows inExec G) {kind : Kind}
    (h : Reached inExec [] profile log) :
    (isSame (ε := ε) kind targetPid).wp (namespaced nss targetPid) G
      (Reaches inExec fun same log' => same = nss.same kind ∧ Reached inExec [] profile log')
      log := by
  refine reaches_bind (reaches_quiet hG (quiet_of_still getPath_still) h)
    fun procfsPath log₁ h₁ => ?_
  rw [Program.bind_eq, Program.wp_call_recording]
  refine ⟨hG _ _ h₁.calm id, fun r hlink => ?_⟩
  have h₂ := h₁.quiet (.namespaceLink procfsPath targetPid kind) r trivial
  have htarget : LinkAnswer (nss.targetLink kind) (nss.target kind) r := hlink rfl
  cases r with
  | error e =>
      have hunread : nss.targetLink kind = false := htarget
      exact ⟨by simp [Namespaces.same, hunread], h₂⟩
  | ok dest =>
      obtain ⟨hread, rfl⟩ := htarget
      simp only [Program.bind_eq, Program.wp_call_recording]
      refine ⟨hG _ _ h₂.calm id, fun r hlink => ?_⟩
      have h₃ := h₂.quiet (.ownNamespaceLink kind) r trivial
      have hmember : membership nss.own (log₁ ++
          [⟨.namespaceLink procfsPath targetPid kind, .ok (nss.target kind)⟩]) kind =
            some (nss.own kind) := by
        rw [membership, h₂.steps_eq]
        rfl
      have hown : LinkAnswer (nss.ownLink kind) (nss.own kind) r := hlink _ hmember
      cases r with
      | error e =>
          have hunread : nss.ownLink kind = false := hown
          exact ⟨by simp [Namespaces.same, hunread], h₃⟩
      | ok dest2 =>
          obtain ⟨hread', rfl⟩ := hown
          exact ⟨by simp [Namespaces.same, hread, hread'], h₃⟩

theorem openKind_wp (hG : Allows inExec G) {kind : Kind}
    (h : Reached inExec taken profile log) :
    (openKind kind targetPid).wp (namespaced nss targetPid) G
      (Reaches inExec fun ns log' => ns = ⟨kind, nss.target kind⟩ ∧
        Reached inExec taken profile log') log := by
  refine reaches_bind (reaches_quiet hG (quiet_of_still getPath_still) h)
    fun procfsPath log₁ h₁ => ?_
  rw [Program.bind_eq, Program.wp_call_recording]
  refine ⟨hG _ _ h₁.calm id, fun r hopen => ?_⟩
  have h₂ := h₁.quiet (.openNamespace procfsPath targetPid kind) r trivial
  cases r with
  | error e => exact h₂.reaches fun _ ha => by cases ha
  | ok file =>
      obtain rfl : file = nss.target kind := hopen rfl
      exact ⟨rfl, h₂⟩

/-- Both loops open a namespace if it is supported and another one. -/
theorem openIfOther_wp {β : Type} (hG : Allows inExec G) {supported : List Bytes}
    {kind : Kind} (hsupported : kind.name ∈ supported ↔ nss.supported kind = true)
    (h : Reached inExec [] profile log) (skipped : β) (opened : Namespace → β)
    (f : NamespaceError → ε) :
    ((if kind.name ∉ supported then return skipped
      else do
        if ← isSame kind targetPid then return skipped
        else
          let ns ← (openKind kind targetPid).mapError f
          return opened ns) : Sys ε β).wp (namespaced nss targetPid) G
      (Reaches inExec fun b log' =>
        b = (if nss.enters kind then opened ⟨kind, nss.target kind⟩ else skipped) ∧
          Reached inExec [] profile log') log := by
  by_cases hkind : kind.name ∈ supported
  · rw [if_neg (not_not_intro hkind)]
    refine reaches_bind (isSame_wp hG h) ?_
    rintro same log₁ ⟨rfl, h₁⟩
    have hsupp := hsupported.mp hkind
    cases hsame : nss.same kind with
    | true => exact ⟨by simp [Namespaces.enters, hsame], h₁⟩
    | false =>
        refine reaches_bind (reaches_mapError (openKind_wp hG h₁)) ?_
        rintro ns log₂ ⟨rfl, h₂⟩
        exact ⟨by simp [Namespaces.enters, hsame, hsupp], h₂⟩
  · rw [if_pos hkind]
    have hsupp : nss.supported kind = false := by
      simpa using fun h => hkind (hsupported.mpr h)
    exact ⟨by simp [Namespaces.enters, hsupp], h⟩

theorem apply_wp (hG : Allows inExec G) (ns : Namespace)
    (h : Reached inExec taken profile log) :
    ns.apply.wp (namespaced nss targetPid) G
      (Reaches inExec fun _ log' => Reached inExec (taken ++ [enterStep ns]) profile log')
      log := by
  refine reaches_lastStep (.setns ns.kind ns.file) (enterStep ns) (g := id)
    (hG _ _ h.calm id) h ?_ (fun _ => id) (fun _ _ => rfl)
  rintro (e | _) ha
  · cases ha
  · exact ⟨rfl, id⟩

theorem applyAll_wp (hG : Allows inExec G) (namespaces : List Namespace)
    (h : Reached inExec taken profile log) :
    (applyAll namespaces).wp (namespaced nss targetPid) G
      (Reaches inExec fun _ log' =>
        Reached inExec (taken ++ namespaces.map enterStep) profile log') log := by
  induction namespaces generalizing taken log with
  | nil =>
      rw [List.map_nil, List.append_nil]
      exact h
  | cons ns namespaces ih =>
      refine reaches_bind (apply_wp hG ns h) fun _ log₁ h₁ => ?_
      have hrest := ih h₁
      rwa [List.append_assoc, List.singleton_append] at hrest

theorem setIdentity_wp (hG : Allows inExec G) (processStatus : ProcStatus)
    (h : Reached inExec taken profile log) :
    (setIdentity processStatus).wp (namespaced nss targetPid) G
      (Reaches inExec fun _ log' =>
        Reached inExec (taken ++ identitySteps processStatus true) profile log') log := by
  rw [setIdentity, Program.bind_eq, Program.wp_call_recording]
  refine ⟨hG _ _ h.calm id, fun groups _ => ?_⟩
  have h₁ := h.quiet .setThreadGroups groups trivial
  refine reaches_step (.setThreadGid processStatus.gid) (.gid processStatus.gid) (g := id)
    (hG _ _ h₁.calm id) h₁ ?_ (fun _ => id) (fun _ _ => rfl) fun log₂ h₂ => ?_
  · rintro (e | _) ha
    · cases ha
    · exact ⟨rfl, id⟩
  refine reaches_mono (reaches_lastStep (.setThreadUid processStatus.uid)
    (.uid processStatus.uid) (g := id) (hG _ _ h₂.calm id) h₂ ?_ (fun _ => id) fun _ _ => rfl) ?_
  · rintro (e | _) ha
    · cases ha
    · exact ⟨rfl, id⟩
  · intro _ log₃ h₃
    rwa [List.append_assoc] at h₃

theorem applySecurityContext_wp (hG : Allows inExec G)
    (processStatus : ProcStatus) (inUserNamespace : Bool)
    (h : Reached inExec taken profile log) :
    (applySecurityContext processStatus inUserNamespace).wp (namespaced nss targetPid) G
      (Reaches inExec fun _ log' =>
        Reached inExec (taken ++ identitySteps processStatus inUserNamespace) profile log')
      log := by
  have hdrop : ∀ taken log, Reached inExec taken profile log →
      (BoundingSet.drop processStatus.effectiveCapabilities processStatus.lastCap :
        Sys SetupError Unit).wp (namespaced nss targetPid) G
          (Reaches inExec fun _ log' => Reached inExec taken profile log') log :=
    fun taken log h => reaches_quiet hG (quiet_of_still (drop_still trivial _ _)) h
  cases inUserNamespace with
  | false =>
      have hnone : taken ++ identitySteps processStatus false = taken := List.append_nil taken
      rw [hnone]
      exact hdrop _ _ h
  | true =>
      refine reaches_bind (setIdentity_wp hG processStatus h) fun _ log₁ h₁ => ?_
      exact hdrop _ _ h₁

theorem reached_profiled {own : LSMProfile} {writes : Log} (h : Reached inExec taken none log)
    (hwrites : WholeWrite (.atPath own.ownPath .write) (changeProfile own.label) (.ok ()) writes) :
    Reached inExec taken (some own) (log ++ writes) := by
  obtain ⟨honly, hcalm, hwhole⟩ := hwrites.of_ok
  refine ⟨?_, fun ev hmem => ?_, fun ev hmem => ?_, fun path => ?_⟩
  · have hsteps : steps writes = [] := by
      apply List.filterMap_eq_nil_iff.mpr
      intro ev hmem
      obtain ⟨bytes, r, rfl⟩ := honly ev hmem
      rfl
    rw [steps_append, hsteps, List.append_nil]
    exact h.steps_eq
  · rcases List.mem_append.mp hmem with hmem | hmem
    · exact h.calm ev hmem
    · obtain ⟨bytes, r, rfl⟩ := honly ev hmem
      exact hcalm _ hmem
  · rcases List.mem_append.mp hmem with hmem | hmem
    · exact h.unexecuted ev hmem
    · obtain ⟨bytes, r, rfl⟩ := honly ev hmem
      exact id
  · have hnone : requested none path = [] := rfl
    rw [writtenTo_append, h.written, hnone, List.nil_append, requested]
    by_cases hpath : path = own.ownPath
    · rw [if_pos hpath, hpath]
      exact hwhole
    · rw [if_neg hpath]
      apply List.flatMap_eq_nil_iff.mpr
      intro ev hmem
      obtain ⟨bytes, r, rfl⟩ := honly ev hmem
      cases r with
      | error e => rfl
      | ok written => simp [writtenBy, Ne.symm hpath]

/-- The profile is asked for in one piece, or the program ends with an error. -/
theorem inheritProfile_wp {f g : IoError → ε} {own : LSMProfile}
    (hG : Allows inExec G) (h : Reached inExec taken none log) :
    ((sys (.openFile own.ownPath .write)).bind fun r => (Program.ofExcept f r).bind fun _ =>
      (writeAll (.atPath own.ownPath .write) (changeProfile own.label)).bind fun r =>
        Program.ofExcept g r).wp (namespaced nss targetPid) G
      (Reaches inExec fun _ log' => Reached inExec taken (some own) log') log := by
  rw [Program.wp_call_recording]
  refine ⟨hG _ _ h.calm id, ?_⟩
  rintro (e | _) _
  · exact h.failed id (f e)
  have h₁ := h.snoc ⟨.openFile own.ownPath .write, .ok ()⟩ id id fun _ => rfl
  rw [show stepOf ⟨.openFile own.ownPath .write, .ok ()⟩ = none from rfl, Option.toList_none,
    List.append_nil] at h₁
  simp only [Program.ofExcept, Program.done_bind]
  rw [Program.wp_bind]
  refine Program.wp_recording (writeAll_wp (fun writes _ honly hcalm => ?_) ?_)
  · refine hG _ _ (fun ev hmem => ?_) id
    rcases List.mem_append.mp hmem with hmem | hmem
    · exact h₁.calm ev hmem
    · obtain ⟨bytes, r, rfl⟩ := honly ev hmem
      exact hcalm _ hmem
  rintro (e | _) writes hwrites
  · refine .inr fun ev hmem => ?_
    rcases List.mem_append.mp hmem with hmem | hmem
    · exact h₁.unexecuted ev hmem
    · obtain ⟨bytes, r, rfl⟩ := hwrites.only ev hmem
      exact id
  · exact reached_profiled h₁ hwrites

end Shared

def namespaceSteps (nss : Namespaces) : List Step := (nss.opened otherKinds).map enterStep

theorem opened_cons (nss : Namespaces) (kind : Kind) (kinds : List Kind) :
    nss.opened (kind :: kinds) =
      (if nss.enters kind then [⟨kind, nss.target kind⟩] else []) ++ nss.opened kinds := by
  by_cases h : nss.enters kind <;> simp [Namespaces.opened, h]

theorem any_user (nss : Namespaces) :
    otherKinds.any (fun kind => nss.enters kind && kind = .user) = nss.enters .user := by
  cases h : nss.enters .user <;> simp [otherKinds, h]

theorem any_user_opened (nss : Namespaces) :
    (nss.opened otherKinds).any (fun ns => ns.kind = .user) = nss.enters .user := by
  rw [← any_user nss, Namespaces.opened, List.any_map, List.any_filter]
  rfl

/-- The command is executed once everything is done, or else the error of
`execve` ends the child. -/
theorem execute_wp {nss : Namespaces} {log : Log} {inExec : Bool} {G : Log → Syscall → Prop}
    {cmd : Cmd} {environment : Environment} {taken : List Step} {profile : Option LSMProfile}
    {targetPid : Pid}
    (hG : ∀ command arguments envs, G log (.exec command arguments envs))
    (h : Reached inExec taken profile log) :
    (execute cmd environment).wp (namespaced nss targetPid) G
      (Reaches inExec fun _ _ => False) log := by
  rw [execute, Program.bind_eq, Program.wp_call_recording]
  refine ⟨hG _ _ _, fun r _ => ?_⟩
  have hcalm : ∀ ev ∈ log ++ [⟨.exec cmd.command cmd.arguments environment, r⟩],
      ¬FailedStep inExec ev := by
    intro ev hmem
    rcases List.mem_append.mp hmem with hmem | hmem
    · exact h.calm ev hmem
    · rw [List.mem_singleton.mp hmem]
      exact id
  cases r with
  | error e => exact .inl hcalm
  | ok _ => exact hcalm

/-- A run in which a step failed ends with the exit code 1, and the command was
not executed. -/
def Settled {ε α : Type} (inExec : Bool) (o : Outcome Halt ε α) (log : Log) : Prop :=
  (∃ ev ∈ log, FailedStep inExec ev) →
    o = .halted (.exited 1) ∧ ∀ ev ∈ log, ¬IsExec ev

theorem settled_of_reaches {ε ε' : Type} {inExec : Bool} {nss : Namespaces} {targetPid : Pid}
    {G : Log → Syscall → Prop} {p : Sys ε Empty} {log : Log}
    (hp : p.wp (namespaced nss targetPid) G (Reaches inExec fun _ _ => False) log) :
    ((p.attempt : Sys ε' (Except ε Empty)).bind fun _ => (.halt (.exited 1) : Sys ε' Empty)).wp
      (namespaced nss targetPid) G (Settled inExec) log := by
  rw [Program.wp_bind, Program.wp_attempt]
  refine Program.wp_post hp fun o log' ho => ?_
  cases o with
  | value never => exact ho.elim
  | error e =>
      rintro ⟨ev, hmem, hfailed⟩
      rcases ho with hcalm | hunexecuted
      · exact (hcalm ev hmem hfailed).elim
      · exact ⟨rfl, hunexecuted⟩
  | halted h =>
      rintro ⟨ev, hmem, hfailed⟩
      exact (ho ev hmem hfailed).elim

section Forks

variable {nss : Namespaces} {log : Log}

theorem silent_wp {ε α : Type} {G : Log → Syscall → Prop} {targetPid : Pid}
    (hG : ∀ log c, ¬Announces c → G log c) {p : Sys ε α}
    (hp : p.Within (fun c => ¬Announces c) fun _ => True) :
    p.wp (namespaced nss targetPid) G (fun _ _ => True) log :=
  Program.wp_post (hp.wp (I := fun _ => True) (fun log c _ hc => hG log c hc)
    (fun _ _ _ _ _ _ _ => trivial) trivial) fun _ _ _ => trivial

theorem not_announces_of_supervises {c : Syscall} (h : Supervises c) : ¬Announces c := by
  cases c <;> first | exact id | (rcases h with h | h <;> exact h.elim)

theorem quiet_first_wp {ε α β : Type} {inExec : Bool} {G : Log → Syscall → Prop}
    {targetPid : Pid} (hG : ∀ log c, ¬Announces c → G log c) {p : Sys ε α} {f : α → Sys ε β}
    (hp : p.Within Quiet fun _ => True) (h : Reached inExec [] none log)
    (hf : ∀ a log', Reached inExec [] none log' →
      (f a).wp (namespaced nss targetPid) G (fun _ _ => True) log') :
    (p.bind f).wp (namespaced nss targetPid) G (fun _ _ => True) log := by
  refine Program.wp_seq (reaches_quiet (fun log c _ => hG log c) hp h) fun o log' ho => ?_
  cases o with
  | value a => exact hf a log' ho
  | error e => trivial
  | halted h => trivial

theorem fork_wp {ε β : Type} {inExec : Bool} {G : Log → Syscall → Prop} {targetPid : Pid}
    {f : Errno → ε} {k : Fork → Sys ε β} (hG : ∀ log c, ¬Announces c → G log c)
    (h : Reached inExec [] none log)
    (hk : ∀ side log', Reached inExec [] none log' →
      (k side).wp (namespaced nss targetPid) G (fun _ _ => True) log') :
    ((sys .fork).bind fun r => (Program.ofExcept f r).bind k).wp (namespaced nss targetPid) G
      (fun _ _ => True) log := by
  rw [Program.wp_call_recording]
  refine ⟨hG _ _ id, ?_⟩
  rintro (e | side) _
  · trivial
  · exact hk side _ (h.quiet _ _ trivial)

end Forks

end Cntr.EnteredNamespaces
