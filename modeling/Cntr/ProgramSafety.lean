import Cntr.CallFootprints
import Cntr.EntryPoint

/-!
What holds of every call that `attach` and `exec` make once they have found the
container holds of every call of the program.
-/

namespace Cntr.ProgramSafety

open Cntr.ByteText
open Cntr.CallTree
open Cntr.SystemCalls
open Cntr.CallFootprints
open Cntr.HostCalls

variable {τ ε ε' α β σ : Type} {K : Kernel linux σ} {G : σ → Syscall → Prop} {I E : σ → Prop}

/-- From the states in `I` the two commands only make calls that `G` allows and end in
`E`, and looking around leads from these states to these states. -/
structure Safe (K : Kernel linux σ) (G : σ → Syscall → Prop) (I E : σ → Prop) : Prop where
  allowed : ∀ s c, I s → Observes c → G s c
  kept : ∀ s c r t, I s → Observes c → K s c r t → I t
  attach : ∀ opts processStatus s, I s →
    (AttachParent.attach opts processStatus).wp K G (fun _ t => E t) s
  exec : ∀ opts processStatus s, I s →
    (ExecCommand.exec opts processStatus).wp K G (fun _ t => E t) s
  ended : ∀ s, I s → E s

/-- The host is only asked in the states in `I`. -/
def Guard (G : σ → Syscall → Prop) (I : σ → Prop) : σ → (linuxAndHost τ).Call → Prop
  | s, .inl c => G s c
  | s, .inr _ => I s

/-- The program makes no call that is not allowed, and whatever it ends with, it ends
in `E`. -/
def Keeps (K : Kernel linux σ) (G : σ → Syscall → Prop) (I E : σ → Prop) (p : Cli τ ε α) : Prop :=
  ∀ s, I s → p.wp K.beyond (Guard G I) (fun _ t => E t) s

/-- The calls that are made before the container is found. -/
def Precedes : (linuxAndHost τ).Call → Prop
  | .inl c => Observes c
  | .inr _ => True

theorem Safe.precedes_bind (safe : Safe K G I E) {p : Cli τ ε α}
    (hp : p.Within Precedes fun _ => True) {f : α → Cli τ ε β} (hf : ∀ a, Keeps K G I E (f a)) :
    Keeps K G I E (p.bind f) := by
  intro s hs
  have hfirst : p.wp K.beyond (Guard G I) (fun o t => I t ∧ ∀ h, o = .halted h → True) s := by
    refine hp.wp ?_ ?_ hs
    · rintro s (c | c) hs hc
      · exact safe.allowed s c hs hc
      · exact hs
    · rintro s (c | c) r t hs hc answer
      · exact safe.kept s c r t hs hc answer
      · obtain rfl : t = s := answer
        exact hs
  refine Program.wp_seq hfirst fun o t ho => ?_
  cases o with
  | value a => exact hf a t ho.1
  | error e => exact safe.ended t ho.1
  | halted h => exact safe.ended t ho.1

theorem Keeps.mapError {f : ε → ε'} {p : Cli τ ε α} (hp : Keeps K G I E p) :
    Keeps K G I E (p.mapError f) :=
  fun s hs => (Program.wp_mapError f p _ _).mpr (Program.wp_post (hp s hs) fun _ _ => id)

theorem Safe.stop (safe : Safe K G I E) (o : Outcome Halt ε α) :
    Keeps (τ := τ) K G I E (.stop o) :=
  safe.ended

/-- What a command that does not return is followed by is never reached. -/
theorem Keeps.never {p : Cli τ ε Empty} (hp : Keeps K G I E p) {f : Empty → Cli τ ε α} :
    Keeps K G I E (p.bind f) := by
  intro s hs
  refine Program.wp_seq (hp s hs) fun o t ht => ?_
  cases o with
  | value never => exact nomatch never
  | error e => exact ht
  | halted h => exact ht

theorem onLinux_precedes {p : Sys ε α} (hp : p.Within Observes fun _ => True) :
    (onLinux (τ := τ) p).Within Precedes fun _ => True :=
  Program.within_left hp

theorem notify_precedes (notice : Notice) :
    (EntryPoint.notify notice : Cli τ ε EntryPoint.ExitCode).Within Precedes fun _ => True :=
  ⟨trivial, fun _ => trivial⟩

theorem hasMountApi_precedes :
    (EntryPoint.hasMountApi : Cli τ ε Bool).Within Precedes fun _ => True := by
  refine ⟨trivial, ?_⟩
  rintro (e | _) <;> trivial

theorem lookupContainer_precedes (containerName : Bytes) (containerTypes : List τ)
    (apparmorMode : ApparmorProfile.ApparmorMode) :
    (EntryPoint.lookupContainer containerName containerTypes apparmorMode).Within Precedes
      fun _ => True := by
  refine .check trivial fun pidRaw => ?_
  split
  · exact (onLinux_precedes (status_observes _ _)).mapError
  · trivial

/-- While the arguments are parsed, only the user database is asked. -/
theorem lookup_within {calls : (linuxAndHost τ).Call → Prop}
    (hask : ∀ name length, calls (.inr (.getpwnam name length))) (name : Bytes) :
    (UserLookup.lookup name).Within calls fun _ => True := by
  rw [UserLookup.lookup]
  split
  · trivial
  · refine ⟨fun length => ⟨hask _ _, ?_⟩, fun _ => trivial⟩
    rintro (e | _ | entry)
    · show Program.Within _ _ (if e = UserLookup.rangeError then _ else _)
      split
      · trivial
      · trivial
    · trivial
    · trivial

theorem attachLoop_within {calls : (linuxAndHost τ).Call → Prop}
    (hask : ∀ name length, calls (.inr (.getpwnam name length))) (linked : EntryPoint.Linked τ)
    (state : CommandLine.AttachState τ) (args : List Bytes) :
    (EntryPoint.attachLoop linked state args).Within calls fun _ => True := by
  fun_induction EntryPoint.attachLoop linked state args with
  | case1 => trivial
  | case2 state arg args hin ih => exact ih
  | case3 => trivial
  | case4 => trivial
  | case5 => trivial
  | case6 state arg hin help version types typesStr args ih =>
      exact ((Program.within_ofExcept _ _).mpr trivial).bind ih
  | case7 => trivial
  | case8 state hin username args help version types ih =>
      refine (lookup_within hask username).attempt.bind ?_
      rintro (e | _ | user)
      · trivial
      · trivial
      · exact ih user
  | case9 => trivial
  | case10 state hin modeStr args help version types user ih =>
      exact ((Program.within_ofExcept _ _).mpr trivial).bind ih
  | case11 state args hin help version types user apparmor ih => exact ih
  | case12 => trivial
  | case13 state arg args hin help version types user apparmor separator plain hname ih =>
      exact ih
  | case14 state arg args hin help version types user apparmor separator plain name hname ih =>
      exact ih

theorem Safe.notify (safe : Safe K G I E) (notice : Notice) :
    Keeps K G I E (EntryPoint.notify notice : Cli τ ε EntryPoint.ExitCode) := by
  have h : Keeps K G I E (Program.bind (EntryPoint.notify notice) .done :
      Cli τ ε EntryPoint.ExitCode) :=
    safe.precedes_bind (notify_precedes notice) fun _ => safe.stop _
  rwa [Program.bind_done] at h

theorem Safe.runAttach (safe : Safe K G I E) (options : CommandLine.AttachOptions τ) :
    Keeps K G I E (EntryPoint.runAttach options) := by
  refine Keeps.never (Keeps.mapError ?_)
  refine safe.precedes_bind hasMountApi_precedes fun available => ?_
  cases available with
  | false => exact safe.stop _
  | true =>
      refine safe.precedes_bind (lookupContainer_precedes _ _ _).mapError fun processStatus => ?_
      exact Keeps.mapError fun s hs => (Program.wp_left _ _ _).mpr (safe.attach _ _ s hs)

theorem Safe.runExec (safe : Safe K G I E) (options : CommandLine.ExecOptions τ) :
    Keeps K G I E (EntryPoint.runExec options) := by
  refine Keeps.never (Keeps.mapError ?_)
  refine safe.precedes_bind hasMountApi_precedes fun available => ?_
  cases available with
  | false => exact safe.stop _
  | true =>
      refine safe.precedes_bind (lookupContainer_precedes _ _ _).mapError fun processStatus => ?_
      exact Keeps.mapError fun s hs => (Program.wp_left _ _ _).mpr (safe.exec _ _ s hs)

theorem Safe.parseAttachArgs (safe : Safe K G I E) (linked : EntryPoint.Linked τ)
    (args : List Bytes) : Keeps K G I E (EntryPoint.parseAttachArgs linked args) := by
  refine safe.precedes_bind (attachLoop_within (fun _ _ => trivial) _ _ _).mapError
    fun parsed => ?_
  cases parsed with
  | help => exact safe.notify _
  | version => exact safe.notify _
  | run state =>
      exact safe.precedes_bind ((Program.within_ofExcept _ _).mpr trivial) safe.runAttach

theorem Safe.parseExecArgs (safe : Safe K G I E) (linked : EntryPoint.Linked τ)
    (args : List Bytes) : Keeps K G I E (EntryPoint.parseExecArgs linked args) := by
  refine safe.precedes_bind ((Program.within_ofExcept _ _).mpr trivial) fun parsed => ?_
  cases parsed with
  | help => exact safe.notify _
  | version => exact safe.notify _
  | run state =>
      exact safe.precedes_bind ((Program.within_ofExcept _ _).mpr trivial) safe.runExec

theorem Safe.runSubcommand (safe : Safe K G I E) (linked : EntryPoint.Linked τ)
    (args : List Bytes) : Keeps K G I E (EntryPoint.runSubcommand linked args) := by
  cases args with
  | nil => exact safe.precedes_bind (notify_precedes .help) fun _ => safe.stop _
  | cons subcommand args =>
      rw [EntryPoint.runSubcommand]
      split
      · exact safe.parseAttachArgs linked args
      · split
        · exact safe.parseExecArgs linked args
        · split
          · exact safe.notify _
          · split
            · exact safe.notify _
            · exact safe.stop _

theorem Safe.main (safe : Safe K G I E) (linked : EntryPoint.Linked τ) (args : List Bytes) :
    Keeps K G I E (EntryPoint.main linked args) := by
  have hdumpable : (EntryPoint.maybeSetDumpable (τ := τ) (ε := EntryPoint.MainError)).Within
      Precedes fun _ => True := by
    refine (onLinux_precedes (envVar_observes _)).bind fun value => ?_
    split
    · exact ⟨trivial, fun _ => trivial⟩
    · trivial
  have hrun : Keeps K G I E (EntryPoint.runWithArgs linked args) := by
    refine safe.precedes_bind hdumpable fun _ => ?_
    exact safe.precedes_bind ((Program.within_ofExcept _ _).mpr trivial)
      fun args => safe.runSubcommand linked args.tail
  intro s hs
  rw [EntryPoint.main, Program.bind_eq, Program.wp_bind, Program.wp_attempt]
  refine Program.wp_post (hrun s hs) fun o t ht => ?_
  cases o with
  | value code => exact ht
  | error e => exact ht
  | halted h => exact ht

end Cntr.ProgramSafety
