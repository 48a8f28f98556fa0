import Cntr.ProgramSafety

/-!
The roles that a process of the program can have, told by the forks it went
through, and the calls of each role.
-/

namespace Cntr.ProcessRoles

open Cntr.ByteText
open Cntr.CallTree
open Cntr.SystemCalls
open Cntr.AttachChild
open Cntr.CallFootprints
open Cntr.CallsMade
open Cntr.IdmapHelperProcess

/-- What is remembered of a process: that it has asked for its user to map it, on
which side of which forks it is, and that it has become the command. -/
inductive Mark where
  | mapping
  | forked
  | born
  | executed
  deriving DecidableEq

def mark : Event linux → Option Mark
  | ⟨.getuid, _⟩ => some .mapping
  | ⟨.fork, .ok (.parentOf _)⟩ => some .forked
  | ⟨.fork, .ok .child⟩ => some .born
  | ⟨.exec _ _ _, .ok _⟩ => some .executed
  | _ => none

/-- The kernel that keeps the marks of a process. -/
def marking : Kernel linux (List Mark) :=
  fun marks c r marks' => marks' = marks ++ (mark ⟨c, r⟩).toList

inductive Role where
  | main
  | helper
  | child
  deriving DecidableEq

def roleOf : List Mark → Option Role
  | [] | [.mapping] | [.forked] | [.mapping, .forked] => some .main
  | [.mapping, .forked, .forked] => some .main
  | [.mapping, .born] => some .helper
  | [.born] | [.mapping, .forked, .born] => some .child
  | [.born, .executed] | [.mapping, .forked, .born, .executed] => some .child
  | _ => none

/-- The calls of the first process besides `getuid` and `fork`: it looks, it talks
to its children, the PTY and the terminal, and it changes nothing of itself. -/
def SupervisorCall : Syscall → Prop
  | .getgid | .pipe | .closeFd _ | .socketpair => True
  | .openpt | .grantpt _ | .unlockpt _ => True
  | .kill _ sig => sig = .kill ∨ sig = .cont
  | .waitpid _ _ => True
  | c => Observes c ∨ Supervises c

/-- The files by which a process maps the users of its user namespace. -/
def idMapFiles : List Path :=
  [ascii "/proc/self/setgroups", ascii "/proc/self/uid_map", ascii "/proc/self/gid_map"]

/-- The calls of the process that only owns a user namespace. -/
def HelperOnly : Syscall → Prop
  | .closeFd _ | .unshareUser | .sleep | .write (.syncPipe _) _ => True
  | .writePath path _ => path ∈ idMapFiles
  | _ => False

def Role.Allows : Role → Syscall → Prop
  | .main, c => SupervisorCall c ∨ c = .getuid ∨ c = .fork
  | .helper, c => HelperOnly c
  | .child, c =>
      Arranges c ∨ Connects c ∨ ∃ command arguments envs, c = .exec command arguments envs

/-- A process with these marks may make the call, and has a role afterwards. -/
def Permits (marks : List Mark) (c : Syscall) : Prop :=
  .executed ∉ marks ∧ (∃ role, roleOf marks = some role ∧ role.Allows c) ∧
    ∀ r, (roleOf (marks ++ (mark ⟨c, r⟩).toList)).isSome

theorem permits_of_unmarked {marks : List Mark} {c : Syscall} {role : Role}
    (hexecuted : .executed ∉ marks) (hrole : roleOf marks = some role) (hc : role.Allows c)
    (hmark : ∀ r, mark ⟨c, r⟩ = none) : Permits marks c := by
  refine ⟨hexecuted, ⟨role, hrole, hc⟩, fun r => ?_⟩
  rw [hmark r, Option.toList_none, List.append_nil, hrole]
  rfl

section Wp

variable {ε ε' α β : Type} {marks : List Mark}

/-- Parts that leave no mark. -/
theorem unmarked_wp {calls : Syscall → Prop} {halts : Halt → Prop}
    (hmark : ∀ c r, calls c → mark ⟨c, r⟩ = none) (hpermits : ∀ c, calls c → Permits marks c)
    {p : Sys ε α} (hp : p.Within calls halts) :
    p.wp marking Permits (fun o marks' => marks' = marks ∧ ∀ h, o = .halted h → halts h)
      marks := by
  refine hp.wp (I := fun marks' => marks' = marks) ?_ ?_ rfl
  · rintro _ c rfl hc
    exact hpermits c hc
  · rintro old c r marks' rfl hc answer
    have hmarks : marks' = old ++ (mark ⟨c, r⟩).toList := answer
    rw [hmarks, hmark c r hc]
    exact List.append_nil _

theorem mark_of_arranges (c : Syscall) (r : c.Answer) (hc : Arranges c) :
    mark ⟨c, r⟩ = none := by
  cases c <;> first | rfl | exact hc.elim

theorem mark_of_connects (c : Syscall) (r : c.Answer) (hc : Connects c) :
    mark ⟨c, r⟩ = none := by
  cases c <;> first | rfl | exact hc.elim

theorem mark_of_supervisorCall (c : Syscall) (r : c.Answer) (hc : SupervisorCall c) :
    mark ⟨c, r⟩ = none := by
  cases c with
  | getuid => exact (hc.elim id fun h => h.elim id id).elim
  | fork => exact (hc.elim id fun h => h.elim id id).elim
  | exec _ _ _ => exact (hc.elim id fun h => h.elim id id).elim
  | _ => rfl

theorem mark_of_helperOnly (c : Syscall) (r : c.Answer) (hc : HelperOnly c) :
    mark ⟨c, r⟩ = none := by
  cases c <;> first | rfl | exact hc.elim

/-- A child that is not the command yet. -/
def IsChild (marks : List Mark) : Prop := marks = [.born] ∨ marks = [.mapping, .forked, .born]

theorem IsChild.permits (h : IsChild marks) {c : Syscall} (hc : Arranges c ∨ Connects c) :
    Permits marks c := by
  have hmark : ∀ r, mark ⟨c, r⟩ = none := fun r =>
    hc.elim (mark_of_arranges c r) (mark_of_connects c r)
  have hallows : Role.child.Allows c := hc.imp_right .inl
  rcases h with rfl | rfl
  · exact permits_of_unmarked (by decide) rfl hallows hmark
  · exact permits_of_unmarked (by decide) rfl hallows hmark

theorem IsChild.permits_exec (h : IsChild marks) (command : Bytes) (arguments : List Bytes)
    (envs : Environment) : Permits marks (.exec command arguments envs) := by
  have hallows : Role.child.Allows (.exec command arguments envs) :=
    .inr (.inr ⟨_, _, _, rfl⟩)
  rcases h with rfl | rfl
  · refine ⟨by decide, ⟨.child, rfl, hallows⟩, ?_⟩
    rintro (e | _) <;> rfl
  · refine ⟨by decide, ⟨.child, rfl, hallows⟩, ?_⟩
    rintro (e | _) <;> rfl

theorem permitted_bind (hmarks : IsChild marks) {calls : Syscall → Prop}
    (hcalls : ∀ c, calls c → Arranges c ∨ Connects c) {p : Sys ε α}
    (hp : p.Within calls fun _ => True) {f : α → Sys ε β}
    (hf : ∀ a, (f a).wp marking Permits (fun _ _ => True) marks) :
    (p.bind f).wp marking Permits (fun _ _ => True) marks := by
  refine Program.wp_seq (unmarked_wp (fun c r hc => (hcalls c hc).elim (mark_of_arranges c r)
    (mark_of_connects c r)) (fun c hc => hmarks.permits (hcalls c hc)) hp) fun o marks' ho => ?_
  obtain ⟨rfl, -⟩ := ho
  cases o with
  | value a => exact hf a
  | error e => trivial
  | halted h => trivial

/-- A child gets ready and goes on. -/
theorem arranges_bind (hmarks : IsChild marks) {p : Sys ε α}
    (hp : p.Within Arranges fun _ => True) {f : α → Sys ε β}
    (hf : ∀ a, (f a).wp marking Permits (fun _ _ => True) marks) :
    (p.bind f).wp marking Permits (fun _ _ => True) marks :=
  permitted_bind hmarks (fun _ => .inl) hp hf

theorem connects_bind (hmarks : IsChild marks) {p : Sys ε α}
    (hp : p.Within Connects fun _ => True) {f : α → Sys ε β}
    (hf : ∀ a, (f a).wp marking Permits (fun _ _ => True) marks) :
    (p.bind f).wp marking Permits (fun _ _ => True) marks :=
  permitted_bind hmarks (fun _ => .inr) hp hf

theorem confines_bind (hmarks : IsChild marks) {p : Sys ε α}
    (hp : p.Within Confines fun _ => True) {f : α → Sys ε β}
    (hf : ∀ a, (f a).wp marking Permits (fun _ _ => True) marks) :
    (p.bind f).wp marking Permits (fun _ _ => True) marks :=
  arranges_bind hmarks (arranges_of_confines hp) hf

/-- The last call of a child that becomes the command. -/
theorem execute_permitted (hmarks : IsChild marks) (cmd : CommandExecution.Cmd)
    (environment : Environment) :
    (CommandExecution.execute cmd environment).wp marking Permits (fun _ _ => True) marks := by
  refine ⟨hmarks.permits_exec _ _ _, ?_⟩
  rintro (e | _) marks' - <;> trivial

theorem mapError_permitted {f : ε → ε'} {p : Sys ε α}
    (hp : p.wp marking Permits (fun _ _ => True) marks) :
    (p.mapError f).wp marking Permits (fun _ _ => True) marks :=
  (Program.wp_mapError f p _ _).mpr (Program.wp_post hp fun _ _ _ => trivial)

end Wp

section Child

variable {marks : List Mark}

theorem attachChild_permitted (hmarks : IsChild marks) (options : ChildOptions) :
    (AttachChild.run options).wp marking Permits (fun _ _ => True) marks := by
  have hpid : (sys .getpid : Sys AttachError Pid).Within Arranges fun _ => True :=
    (Program.within_call _).mpr trivial
  refine arranges_bind hmarks hpid fun pid => ?_
  refine confines_bind hmarks (moveTo_confines _ _).mapError fun _ => ?_
  refine arranges_bind hmarks (arranges_of_observes (cmdNew_observes _ _ _ _)).mapError
    fun cmd => ?_
  refine arranges_bind hmarks (arranges_of_observes supportedNamespaces_observes).mapError
    fun supported => ?_
  split
  · trivial
  · refine arranges_bind hmarks (arranges_of_observes (attachOpenOthers_observes _ _ _ _))
      fun otherNamespaces => ?_
    refine arranges_bind hmarks (arranges_of_observes getBaseDir_observes) fun baseDir => ?_
    refine arranges_bind hmarks (assembleHierarchy_arranges _ _) fun localtimeCopy => ?_
    refine confines_bind hmarks (applyAll_confines _).mapError fun _ => ?_
    refine connects_bind hmarks setupPty_connects fun ptyMaster => ?_
    refine confines_bind hmarks (applySecurityContext_confines trivial _ _).mapError
      fun _ => ?_
    refine connects_bind hmarks (sendReady_connects _) fun _ => ?_
    have hchdir : (sys (.chdir baseDir) : Sys AttachError _).Within Arranges fun _ => True :=
      (Program.within_call _).mpr trivial
    refine arranges_bind hmarks hchdir fun _ => ?_
    refine confines_bind hmarks (inheritProfile_confines _) fun _ => mapError_permitted ?_
    have hpath : (sys (.getenv (ascii "PATH")) : Sys CommandExecution.CmdError _).Within
        Arranges fun _ => True := (Program.within_call _).mpr trivial
    exact arranges_bind hmarks hpath fun ownPath => execute_permitted hmarks _ _

theorem execChild_permitted (hmarks : IsChild marks)
    (processStatus : ContainerSetup.ProcStatus) (exe : Option Bytes) (args : List Bytes)
    (ptyMaster : Option Fd) :
    (ExecCommand.execChild processStatus exe args ptyMaster).wp marking Permits
      (fun _ _ => True) marks := by
  have hslave : (ExecCommand.attachPtySlave ptyMaster).Within Connects fun _ => True := by
    cases ptyMaster with
    | none => trivial
    | some ptyMaster => exact (attachPts_connects ptyMaster).mapError
  refine connects_bind hmarks hslave fun _ => ?_
  refine arranges_bind hmarks (arranges_of_observes (cmdNew_observes _ _ _ _)).mapError
    fun cmd => ?_
  refine confines_bind hmarks (enterContainer_confines trivial _).mapError fun _ => ?_
  refine mapError_permitted ?_
  refine arranges_bind hmarks (arranges_of_observes (containerEnvironment_observes _))
    fun environment => ?_
  exact confines_bind hmarks (preExec_confines _ _).mapError fun _ =>
    execute_permitted hmarks _ _

/-- Whatever the attempt ends with, the process ends. -/
theorem exit_permitted {ε ε' : Type} {p : Sys ε Empty}
    (hp : p.wp marking Permits (fun _ _ => True) marks) :
    ((p.attempt : Sys ε' (Except ε Empty)).bind fun _ => .halt (.exited 1) :
      Sys ε' Empty).wp marking Permits (fun o _ => ∃ h, o = .halted h) marks := by
  rw [Program.wp_bind, Program.wp_attempt]
  refine Program.wp_post hp fun o marks' _ => ?_
  cases o with
  | value never => exact nomatch never
  | error e => exact ⟨_, rfl⟩
  | halted h => exact ⟨h, rfl⟩

end Child

theorem helperProcess_only (mapping : IdMapping) (readFd writeFd : Fd) :
    (helperProcess mapping readFd writeFd).Within HelperOnly fun _ => True := by
  have hsetup : (setupUserns mapping).Within HelperOnly fun _ => True := by
    have hwrite : ∀ path contents, HelperOnly (.writePath path contents) →
        (writeIdMap path contents).Within HelperOnly fun _ => True :=
      fun path contents hpath =>
        ⟨hpath, fun r => (Program.within_ofExcept _ r).mpr trivial⟩
    refine .check trivial fun _ => ⟨by simp [HelperOnly, idMapFiles], fun _ => ?_⟩
    exact (hwrite _ _ (by simp [HelperOnly, idMapFiles])).bind fun _ =>
      hwrite _ _ (by simp [HelperOnly, idMapFiles])
  have hready : (WholeWrites.writeAll (ε := IdmapError) (.syncPipe writeFd)
      (ascii "R")).Within HelperOnly fun _ => True := writeAll_within (fun _ => trivial) _
  refine ⟨trivial, fun _ => hsetup.attempt.bind ?_⟩
  rintro (e | _)
  · trivial
  · refine hready.bind ?_
    rintro (e | _)
    · trivial
    · exact ⟨fun _ => ⟨trivial, fun _ => trivial⟩, fun never => nomatch never⟩

section Main

variable {ε ε' α β : Type} {marks : List Mark}

/-- The first process, on the parent's side of every fork. -/
def IsMain (marks : List Mark) : Prop :=
  marks ∈ [[], [.mapping], [.forked], [.mapping, .forked], [.mapping, .forked, .forked]]

theorem IsMain.permits (h : IsMain marks) {c : Syscall} (hc : SupervisorCall c) :
    Permits marks c := by
  have hmark : ∀ r, mark ⟨c, r⟩ = none := fun r => mark_of_supervisorCall c r hc
  simp only [IsMain, List.mem_cons, List.not_mem_nil, or_false] at h
  rcases h with rfl | rfl | rfl | rfl | rfl
  all_goals exact permits_of_unmarked (by decide) rfl (.inl hc) hmark

/-- When the first process forks: once for the helper, and once for the child. -/
def Forks (marks : List Mark) : Prop := marks ∈ [[], [.mapping], [.mapping, .forked]]

theorem Forks.isMain (h : Forks marks) : IsMain marks := by
  simp only [Forks, List.mem_cons, List.not_mem_nil, or_false] at h
  rcases h with rfl | rfl | rfl <;> simp [IsMain]

theorem Forks.permits (h : Forks marks) : Permits marks .fork := by
  simp only [Forks, List.mem_cons, List.not_mem_nil, or_false] at h
  rcases h with rfl | rfl | rfl
  all_goals
    refine ⟨by decide, ⟨.main, rfl, .inr (.inr rfl)⟩, ?_⟩
    rintro (e | _ | pid) <;> rfl

/-- The first process goes on after a part in which it makes no process. -/
theorem supervisor_bind (hmarks : IsMain marks) {p : Sys ε α}
    (hp : p.Within SupervisorCall fun _ => True) {f : α → Sys ε β}
    {Q : Outcome Halt ε β → List Mark → Prop} (hf : ∀ a, (f a).wp marking Permits Q marks)
    (herror : ∀ e, Q (.error e) marks) (hhalted : ∀ h, Q (.halted h) marks) :
    (p.bind f).wp marking Permits Q marks := by
  refine Program.wp_seq (unmarked_wp mark_of_supervisorCall
    (fun c hc => hmarks.permits hc) hp) fun o marks' ho => ?_
  obtain ⟨rfl, -⟩ := ho
  cases o with
  | value a => exact hf a
  | error e => exact herror e
  | halted h => exact hhalted h

/-- A fork that the first process makes. -/
theorem fork_permitted (hmarks : Forks marks) {f : Fork → Sys ε β} {e : Errno → ε}
    {Q : Outcome Halt ε β → List Mark → Prop}
    (hparent : ∀ pid, (f (.parentOf pid)).wp marking Permits Q (marks ++ [.forked]))
    (hchild : (f .child).wp marking Permits Q (marks ++ [.born]))
    (herror : ∀ errno, Q (.error (e errno)) marks) :
    (((sys .fork : Sys ε _).bind fun r => (Program.ofExcept e r).bind f) :
      Sys ε β).wp marking Permits Q marks := by
  refine ⟨hmarks.permits, ?_⟩
  rintro (errno | fork) marks' answer
  · obtain rfl : marks' = marks := answer.trans (List.append_nil _)
    exact herror errno
  · cases fork with
    | child =>
        obtain rfl : marks' = marks ++ [Mark.born] := answer
        exact hchild
    | parentOf pid =>
        obtain rfl : marks' = marks ++ [Mark.forked] := answer
        exact hparent pid

theorem supervisorCall_of_supervises {p : Sys ε α} {halts : Halt → Prop}
    (h : p.Within Supervises halts) : p.Within SupervisorCall fun _ => True := by
  refine h.mono (fun c hc => ?_) fun _ _ => trivial
  cases c with
  | kill pid sig => exact .inr (hc.elim False.elim id)
  | _ => first | exact .inr hc | trivial

theorem awaitHelper_within {calls : Syscall → Prop} (hclose : ∀ fd, calls (.closeFd fd))
    (hread : ∀ fd size, calls (.read (.syncPipe fd) size))
    (hopen : ∀ path pid kind, calls (.openNamespace path pid kind)) (child : Pid)
    (readFd writeFd : Fd) : (awaitHelper child readFd writeFd).Within calls fun _ => True := by
  refine ⟨hclose _, fun _ => .check (hread _ _) fun buf => ?_⟩
  split
  · trivial
  · exact ⟨hclose _, fun _ => .check (hopen _ _ _) fun _ => trivial⟩

theorem awaitHelper_supervisorCall (child : Pid) (readFd writeFd : Fd) :
    (awaitHelper child readFd writeFd).Within SupervisorCall fun _ => True :=
  awaitHelper_within (fun _ => trivial) (fun _ _ => .inr (.inl trivial))
    (fun _ _ _ => .inl trivial) child readFd writeFd

/-- The calls that are made to have a helper, those of the helper among them. -/
def MakesHelper : Syscall → Prop
  | .getuid | .getgid | .pipe | .fork | .closeFd _ | .openNamespace _ _ _ => True
  | .read (.syncPipe _) _ => True
  | c => HelperOnly c

theorem createHelper_makesHelper (effectiveUser : Option AttachParent.User) :
    (AttachParent.createHelper effectiveUser).Within MakesHelper fun _ => True := by
  have hnew : ∀ mapping, (IdmapHelper.new mapping).Within MakesHelper fun _ => True := by
    intro mapping
    refine .check trivial fun pipe => .check trivial fun fork => ?_
    cases fork with
    | parentOf child =>
        exact awaitHelper_within (fun _ => trivial) (fun _ _ => trivial) (fun _ _ _ => trivial)
          child pipe.1 pipe.2
    | child =>
        have hprocess : (helperProcess mapping pipe.1 pipe.2).Within MakesHelper
            fun _ => True := by
          refine (helperProcess_only mapping pipe.1 pipe.2).mono (fun c hc => ?_) fun _ => id
          cases c <;> first | exact hc | trivial
        exact hprocess.bind fun never => nomatch never
  cases effectiveUser with
  | none => trivial
  | some user =>
      exact ⟨trivial, fun _ => ⟨trivial, fun _ => (hnew _).mapError.bind fun _ => trivial⟩⟩

theorem socketPair_supervisorCall :
    (ReadySocket.socketPair.mapError AttachError.ipc).Within SupervisorCall fun _ => True :=
  Program.Within.mapError ⟨trivial, fun r => (Program.within_ofExcept _ r).mpr trivial⟩

theorem dropHelper_supervisorCall (helper : Option IdmapHelper) :
    (AttachParent.dropHelper helper).Within SupervisorCall fun _ => True := by
  cases helper with
  | none => trivial
  | some helper => exact ⟨.inl rfl, fun _ => ⟨trivial, fun _ => trivial⟩⟩

/-- The calls by which `exec` makes a PTY. -/
def OpensPty : Syscall → Prop
  | .isatty _ | .openpt | .grantpt _ | .unlockpt _ => True
  | _ => False

theorem createPty_opensPty : ExecCommand.createPty.Within OpensPty fun _ => True := by
  have htty : (PtySession.stdioIsTty (ε := ExecCommand.ExecError)).Within OpensPty
      fun _ => True := by
    refine ⟨trivial, fun isTty => ?_⟩
    cases isTty with
    | true => exact ⟨trivial, fun _ => trivial⟩
    | false => trivial
  refine htty.bind fun isTty => ?_
  cases isTty with
  | false => trivial
  | true =>
      have hptm : PtySession.openPtm.Within OpensPty fun _ => True :=
        .check trivial fun _ => .check trivial fun _ => .check trivial fun _ => trivial
      exact hptm.mapError.bind fun _ => trivial

theorem createPty_supervisorCall :
    ExecCommand.createPty.Within SupervisorCall fun _ => True := by
  refine createPty_opensPty.mono (fun c hc => ?_) fun _ _ => trivial
  cases c <;> first | exact hc.elim | exact .inl hc | trivial

/-- Between two forks, and when no helper was asked for. -/
def Idle (marks : List Mark) : Prop := marks = [] ∨ marks = [.mapping, .forked]

theorem newHelper_permitted (mapping : IdMapping) :
    (IdmapHelper.new mapping).wp marking Permits
      (fun o marks => ∀ helper, o = .value helper → marks = [.mapping, .forked])
      [.mapping] := by
  have hforks : Forks [.mapping] := by simp [Forks]
  have hmain' : IsMain [.mapping, .forked] := by simp [IsMain]
  have hpipe : ((sys .pipe : Sys IdmapError _).bind fun r =>
      Program.ofExcept .createPipe r).Within SupervisorCall fun _ => True :=
    ⟨trivial, fun r => (Program.within_ofExcept _ r).mpr trivial⟩
  refine supervisor_bind hforks.isMain hpipe ?_ (by simp) (by simp)
  rintro ⟨readFd, writeFd⟩
  refine fork_permitted hforks (fun child => ?_) ?_ (by simp)
  · refine Program.wp_post (unmarked_wp mark_of_supervisorCall
      (fun c hc => hmain'.permits hc) (awaitHelper_supervisorCall child readFd writeFd))
      fun o marks ho helper _ => ho.1
  · have hpermits : ∀ c, HelperOnly c → Permits [.mapping, .born] c := fun c hc =>
      permits_of_unmarked (by decide) rfl hc fun r => mark_of_helperOnly c r hc
    refine Program.wp_seq (unmarked_wp mark_of_helperOnly hpermits
      (helperProcess_only mapping readFd writeFd)) fun o marks _ => ?_
    cases o with
    | value never => exact nomatch never
    | error e => simp
    | halted h => simp

theorem createHelper_permitted (effectiveUser : Option AttachParent.User) :
    (AttachParent.createHelper effectiveUser).wp marking Permits
      (fun o marks => ∀ helper, o = .value helper → Idle marks) [] := by
  cases effectiveUser with
  | none => exact fun _ _ => .inl rfl
  | some user =>
      have hmain : IsMain [.mapping] := by simp [IsMain]
      refine ⟨⟨by decide, ⟨.main, rfl, .inr (.inl rfl)⟩, fun _ => rfl⟩, ?_⟩
      rintro uid _ rfl
      have hgid : (sys .getgid : Sys AttachError Nat).Within SupervisorCall fun _ => True :=
        (Program.within_call _).mpr trivial
      refine supervisor_bind hmain hgid (fun gid => ?_) (by simp) (by simp)
      rw [Program.bind_eq, Program.wp_bind, Program.wp_mapError]
      refine Program.wp_post (newHelper_permitted _) fun o marks ho => ?_
      cases o with
      | value helper => exact fun _ _ => .inr (ho helper rfl)
      | error e =>
          intro helper h
          cases h
      | halted h =>
          intro helper h
          cases h

theorem attachWithHelper_permitted {marks : List Mark} (hmarks : Idle marks)
    (options : ChildOptions) :
    (AttachParent.attachWithHelper options).wp marking Permits
      (fun o marks => ∀ e, o = .error e → IsMain marks) marks := by
  have hforks : Forks marks := by rcases hmarks with rfl | rfl <;> simp [Forks]
  have hforked : IsMain (marks ++ [.forked]) := by
    rcases hmarks with rfl | rfl <;> simp [IsMain]
  have hborn : IsChild (marks ++ [.born]) := by
    rcases hmarks with rfl | rfl <;> simp [IsChild]
  refine supervisor_bind hforks.isMain socketPair_supervisorCall (fun _ => ?_)
    (fun _ _ _ => hforks.isMain) (by simp)
  refine fork_permitted hforks (fun childPid => ?_) ?_ fun _ _ _ => hforks.isMain
  · refine Program.wp_post (unmarked_wp mark_of_supervisorCall
      (fun c hc => hforked.permits hc)
      (supervisorCall_of_supervises (attachParentBranch_supervises childPid)))
      fun o marks ho e _ => ?_
    rw [ho.1]
    exact hforked
  · refine ⟨hborn.permits (.inr trivial), fun _ marks' answer => ?_⟩
    obtain rfl : marks' = marks ++ [Mark.born] := answer.trans (List.append_nil _)
    refine Program.wp_post (exit_permitted (attachChild_permitted hborn options))
      fun o marks ho e he => ?_
    obtain ⟨h, rfl⟩ := ho
    cases he

theorem attach_permitted (opts : AttachParent.AttachOptions)
    (processStatus : ContainerSetup.ProcStatus) :
    (AttachParent.attach opts processStatus).wp marking Permits (fun _ _ => True) [] := by
  refine Program.wp_seq (createHelper_permitted _) fun o marks ho => ?_
  cases o with
  | error e => trivial
  | halted h => trivial
  | value helper =>
      have hidle : Idle marks := ho helper rfl
      show Program.wp _ _ ((Program.attempt _).bind _) _ _
      rw [Program.wp_bind, Program.wp_attempt]
      refine Program.wp_post (attachWithHelper_permitted hidle _) fun o marks ho => ?_
      cases o with
      | value never => exact nomatch never
      | halted h => trivial
      | error e =>
          have hmain : IsMain marks := ho e rfl
          exact supervisor_bind hmain (dropHelper_supervisorCall helper) (fun _ => trivial)
            (fun _ => trivial) fun _ => trivial

theorem exec_permitted (opts : ExecCommand.ExecOptions)
    (processStatus : ContainerSetup.ProcStatus) :
    (ExecCommand.exec opts processStatus).wp marking Permits (fun _ _ => True) [] := by
  have hforks : Forks [] := by simp [Forks]
  have hforked : IsMain [.forked] := by simp [IsMain]
  refine supervisor_bind hforks.isMain createPty_supervisorCall (fun ptyMaster => ?_)
    (fun _ => trivial) fun _ => trivial
  refine fork_permitted hforks (fun childPid => ?_) ?_ fun _ => trivial
  · exact Program.wp_post (unmarked_wp mark_of_supervisorCall
      (fun c hc => hforked.permits hc)
      (supervisorCall_of_supervises (execParentBranch_supervises ptyMaster childPid)))
      fun _ _ _ => trivial
  · exact Program.wp_post (exit_permitted (execChild_permitted (.inl rfl) _ _ _ _))
      fun _ _ _ => trivial

end Main

/-- The first process may do what it does before there is another one. -/
theorem program_permitted :
    ProgramSafety.Safe marking Permits (fun marks => marks = []) fun _ => True where
  allowed := by
    rintro _ c rfl hc
    have hmain : IsMain [] := by simp [IsMain]
    refine hmain.permits ?_
    cases c <;> first | exact .inl hc | trivial
  kept := by
    rintro _ c r marks rfl hc answer
    have hmark : mark ⟨c, r⟩ = none := by
      cases c <;> first | rfl | exact hc.elim
    have hmarks : marks = [] ++ (mark ⟨c, r⟩).toList := answer
    rw [hmarks, hmark]
    rfl
  attach := by
    rintro opts processStatus _ rfl
    exact attach_permitted opts processStatus
  exec := by
    rintro opts processStatus _ rfl
    exact exec_permitted opts processStatus
  ended := fun _ _ => trivial

end Cntr.ProcessRoles
