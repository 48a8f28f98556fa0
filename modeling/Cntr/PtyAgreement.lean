import Cntr.ForkedProcesses
import Cntr.ForkingPrograms
import Cntr.ProcessRoles

/-!
The PTY between the parent and the child of `attach`: the parent forwards one if and
only if the child has made its slave the terminal of the command.
-/

namespace Cntr.PtyAgreement

open Cntr.ByteText
open Cntr.CallTree
open Cntr.SystemCalls
open Cntr.AttachChild
open Cntr.CallFootprints
open Cntr.CallsMade
open Cntr.ForkedProcesses
open Cntr.PtySession

/-- The PTY masters known by the paths of their slaves, the slaves that are open, and
what the standard files were last made copies of. Each slave is known by its master. -/
structure Stdio where
  named : Path → Option Fd
  slaveOf : Fd → Option Fd
  terminal : Fd → Option Fd

structure View where
  stdio : Stdio
  told : Bool

namespace View

def start : View := ⟨⟨fun _ => none, fun _ => none, fun _ => none⟩, false⟩

def after (view : View) : Event linux → View
  | ⟨.ptsname master, .ok path⟩ =>
      { view with stdio.named := fun p => if p = path then some master else view.stdio.named p }
  | ⟨.openTerminal path, .ok slave⟩ =>
      { view with
        stdio.slaveOf := fun fd =>
          if fd = slave then view.stdio.named path else view.stdio.slaveOf fd }
  | ⟨.dup2 fd target, .ok _⟩ =>
      { view with
        stdio.terminal := fun t =>
          if t = target then view.stdio.slaveOf fd else view.stdio.terminal t }
  | ⟨.sendmsg _ _, _⟩ => { view with told := true }
  | _ => view

end View

/-- The descriptors are the master of the PTY that all standard files are at, if they
are at one. -/
def Agreed (stdio : Stdio) (files : List Fd) : Prop :=
  ∃ master : Option Fd,
    (∀ fd ∈ [stdin, stdout, stderr], stdio.terminal fd = master) ∧ files = master.toList

/-- The kernel that keeps the view of a child. -/
def viewing : Kernel linux View := fun view c r view' => view' = view.after ⟨c, r⟩

/-- The standard files are settled when the parent is told of them. -/
def Wired (view : View) : Syscall → Prop
  | .sendmsg _ files => Agreed view.stdio files
  | .dup2 _ _ => view.told = false
  | _ => True

section Child

variable {ε α β : Type} {view : View}

theorem arranges_same (c : Syscall) (r : c.Answer) (hc : Arranges c) :
    view.after ⟨c, r⟩ = view := by
  cases c <;> first | rfl | exact hc.elim

theorem same_bind {p : Sys ε α} (hp : p.Within Arranges fun _ => True) {f : α → Sys ε β}
    (hf : ∀ a, (f a).wp viewing Wired (fun _ _ => True) view) :
    (p.bind f).wp viewing Wired (fun _ _ => True) view := by
  have hsame : p.wp viewing Wired
      (fun o view' => view' = view ∧ ∀ h, o = .halted h → True) view := by
    refine hp.wp (I := fun view' => view' = view) ?_ ?_ rfl
    · rintro _ c rfl hc
      cases c <;> trivial
    · rintro _ c r _ rfl hc rfl
      exact arranges_same c r hc
  refine Program.wp_seq hsame ?_
  rintro (a | e | h) _ ⟨rfl, -⟩
  · exact hf a
  · trivial
  · trivial

/-- The standard files are those that the child was started with. -/
def Untouched (view : View) : Prop :=
  (∀ fd, view.stdio.terminal fd = none) ∧ view.told = false

/-- All standard files are at the slave of the PTY with this master. -/
def Attached (master : Fd) (view : View) : Prop :=
  (∀ fd ∈ [stdin, stdout, stderr], view.stdio.terminal fd = some master) ∧ view.told = false

theorem attachPts_wp (master : Fd) (h : Untouched view) :
    (attachPts master).wp viewing Wired (fun o view' => o = .value () → Attached master view')
      view := by
  refine ⟨trivial, ?_⟩
  rintro (e | path) _ rfl
  · rintro ⟨⟩
  show Program.wp _ _ (if isUtf8 path then _ else _) _ _
  split
  · refine ⟨trivial, ?_⟩
    rintro (e | _) _ rfl
    · rintro ⟨⟩
    refine ⟨trivial, ?_⟩
    rintro (e | slave) _ rfl
    · rintro ⟨⟩
    refine ⟨trivial, ?_⟩
    rintro r _ rfl
    refine ⟨h.2, ?_⟩
    rintro (e | _) _ rfl
    · rintro ⟨⟩
    refine ⟨h.2, ?_⟩
    rintro (e | _) _ rfl
    · rintro ⟨⟩
    refine ⟨h.2, ?_⟩
    rintro (e | _) _ rfl
    · rintro ⟨⟩
    refine ⟨trivial, ?_⟩
    rintro _ _ rfl
    rintro -
    refine ⟨?_, h.2⟩
    simp [View.after, stdin, stdout, stderr]
  · rintro ⟨⟩

theorem setupPty_wp (h : Untouched view) :
    setupPty.wp viewing Wired
      (fun o view' => ∀ master, o = .value master →
        Agreed view'.stdio master.toList ∧ view'.told = false) view := by
  have hnone : ∀ master : Option Fd, (.value none : Outcome Halt AttachError _) = .value master →
      Agreed view.stdio master.toList ∧ view.told = false := by
    rintro _ ⟨⟩
    exact ⟨⟨none, fun fd _ => h.1 fd, rfl⟩, h.2⟩
  have hopen : openPtm.wp viewing Wired (fun _ view' => view' = view) view := by
    refine ⟨trivial, ?_⟩
    rintro (e | master) _ rfl
    · rfl
    refine ⟨trivial, ?_⟩
    rintro (e | _) _ rfl
    · rfl
    refine ⟨trivial, ?_⟩
    rintro (e | _) _ rfl <;> rfl
  refine ⟨trivial, ?_⟩
  rintro (_ | _) _ rfl
  · exact hnone
  refine ⟨trivial, ?_⟩
  rintro (_ | _) _ rfl
  · exact hnone
  show Program.wp _ _ ((openPtm.mapError _).bind _) _ _
  rw [Program.wp_bind, Program.wp_mapError]
  refine Program.wp_post hopen ?_
  rintro (master | e | halt) _ rfl
  · show Program.wp _ _ (((attachPts master).mapError _).bind _) _ _
    rw [Program.wp_bind, Program.wp_mapError]
    refine Program.wp_post (attachPts_wp master h) ?_
    rintro (_ | e | halt) view' ho
    · rintro _ ⟨⟩
      obtain ⟨hfiles, htold⟩ := ho rfl
      exact ⟨⟨some master, hfiles, rfl⟩, htold⟩
    · rintro _ ⟨⟩
    · rintro _ ⟨⟩
  · rintro _ ⟨⟩
  · rintro _ ⟨⟩

theorem same_of_observes {p : Sys ε α} (hp : p.Within Observes fun _ => True) {f : α → Sys ε β}
    (hf : ∀ a, (f a).wp viewing Wired (fun _ _ => True) view) :
    (p.bind f).wp viewing Wired (fun _ _ => True) view :=
  same_bind (arranges_of_observes hp) hf

theorem same_of_confines {p : Sys ε α} (hp : p.Within Confines fun _ => True) {f : α → Sys ε β}
    (hf : ∀ a, (f a).wp viewing Wired (fun _ _ => True) view) :
    (p.bind f).wp viewing Wired (fun _ _ => True) view :=
  same_bind (arranges_of_confines hp) hf

theorem enterAndExecute_wp (h : Untouched view) (options : ChildOptions) (baseDir : Path)
    (cmd : CommandExecution.Cmd) (otherNamespaces : List NamespaceFiles.Namespace) :
    (enterAndExecute options baseDir cmd otherNamespaces).wp viewing Wired (fun _ _ => True)
      view := by
  refine same_of_confines (applyAll_confines _).mapError fun _ => ?_
  refine Program.wp_seq (setupPty_wp h) ?_
  rintro (master | e | halt) view' ho
  · obtain ⟨hagreed, htold⟩ := ho master rfl
    refine same_of_confines (applySecurityContext_confines trivial _ _).mapError fun _ => ?_
    refine ⟨hagreed, ?_⟩
    rintro (e | _) _ rfl
    · trivial
    have hchdir : (sys (.chdir baseDir) : Sys AttachError _).Within Arranges fun _ => True :=
      (Program.within_call _).mpr trivial
    refine same_bind hchdir fun _ => ?_
    refine same_of_confines (inheritProfile_confines _) fun _ => ?_
    refine (Program.wp_mapError _ _ _ _).mpr ⟨trivial, fun ownPath view' _ => ⟨trivial, ?_⟩⟩
    rintro (e | _) view'' - <;> trivial
  · trivial
  · trivial

theorem attachRun_wp (h : Untouched view) (options : ChildOptions) :
    (AttachChild.run options).wp viewing Wired (fun _ _ => True) view := by
  have hpid : (sys .getpid : Sys AttachError Pid).Within Arranges fun _ => True :=
    (Program.within_call _).mpr trivial
  refine same_bind hpid fun pid => ?_
  refine same_of_confines (moveTo_confines _ _).mapError fun _ => ?_
  refine same_of_observes (cmdNew_observes _ _ _ _).mapError fun cmd => ?_
  refine same_of_observes supportedNamespaces_observes.mapError fun supported => ?_
  split
  · trivial
  · refine same_of_observes (attachOpenOthers_observes _ _ _ _) fun otherNamespaces => ?_
    refine same_of_observes getBaseDir_observes fun baseDir => ?_
    refine same_bind (assembleHierarchy_arranges _ _) fun localtimeCopy => ?_
    exact enterAndExecute_wp h options baseDir _ _

/-- A child tells its parent what its standard files are, and leaves them so. -/
theorem childBranch_wp (options : ChildOptions) :
    (AttachParent.childBranch options).wp viewing Wired (fun _ _ => True) View.start := by
  have hstart : Untouched View.start := ⟨fun _ => rfl, rfl⟩
  refine ⟨trivial, ?_⟩
  rintro _ _ rfl
  show Program.wp _ _ ((AttachChild.run options).attempt.bind _) _ _
  rw [Program.wp_bind, Program.wp_attempt]
  refine Program.wp_post (attachRun_wp hstart options) ?_
  rintro (never | e | halt) view' - <;> trivial

end Child

/-- The view of a child that has made these calls. -/
def viewOf (log : Log) : View := log.foldl View.after View.start

theorem viewOf_concat (log : Log) (ev : Event linux) :
    viewOf (log ++ [ev]) = (viewOf log).after ev :=
  List.foldl_concat ..

/-- What the two processes and the socket between them have in common. -/
structure Wiring (w : World) : Prop where
  queued : ∀ message ∈ w.queue, ⟨.sendmsg message.1 message.2, .ok ()⟩ ∈ w.childLog
  agreed : ∀ message files, ⟨.sendmsg message files, .ok ()⟩ ∈ w.childLog →
    (viewOf w.childLog).told = true ∧ Agreed (viewOf w.childLog).stdio files

/-- The child has sent so many descriptors. -/
def Told (n : Nat) (w : World) : Prop :=
  ∃ message files, ⟨.sendmsg message files, .ok ()⟩ ∈ w.childLog ∧ files.length = n

section World

variable {options : ChildOptions} {childPid : Pid} {w w' : World}

theorem issue_wired {c : Syscall} {log : Log}
    (issue : (AttachParent.childBranch options).Issues (tracing linux) [] c log) :
    Wired (viewOf log) c := by
  have hviewed : (AttachParent.childBranch options).Issues viewing (viewOf []) c (viewOf log) := by
    refine issue.map (f := viewOf) fun log c r log' answer => ?_
    have hlog : log' = log ++ [(⟨c, r⟩ : Event linux)] := answer
    rw [hlog, viewOf_concat]
    rfl
  exact hviewed.of_wp (childBranch_wp options)

theorem told_after (view : View) (ev : Event linux) (h : view.told = true) :
    (view.after ev).told = true := by
  unfold View.after
  split <;> first | exact h | rfl

theorem agreed_after {view : View} {c : Syscall} {r : c.Answer} (hwired : Wired view c)
    (htold : view.told = true) {files : List Fd} (h : Agreed view.stdio files) :
    Agreed (view.after ⟨c, r⟩).stdio files := by
  unfold View.after
  split
  · exact h
  · exact h
  · next heq =>
      cases heq
      have huntold : view.told = false := hwired
      rw [htold] at huntold
      cases huntold
  · exact h
  · exact h

theorem wiring_step (step : ChildStep (AttachParent.childBranch options) w w')
    (h : Wiring w) : Wiring w' ∧ w.childLog <+: w'.childLog ∧ w'.parentLog = w.parentLog := by
  cases step with
  | @call c r alive unexecuted issue =>
      refine ⟨⟨?_, ?_⟩, List.prefix_append _ _, rfl⟩
      · intro message hmem
        rcases List.mem_append.mp hmem with hmem | hmem
        · exact List.mem_append_left _ (h.queued message hmem)
        · rw [eq_of_mem_sentBy hmem]
          exact List.mem_append_right _ (List.mem_singleton.mpr rfl)
      · intro message files hmem
        rw [viewOf_concat]
        have hwired := issue_wired issue
        rcases List.mem_append.mp hmem with hmem | hmem
        · obtain ⟨htold, hagreed⟩ := h.agreed message files hmem
          exact ⟨told_after _ _ htold, agreed_after hwired htold hagreed⟩
        · cases List.mem_singleton.mp hmem
          exact ⟨rfl, hwired⟩
  | execute => exact ⟨⟨h.queued, h.agreed⟩, List.prefix_refl _, rfl⟩
  | exit => exact ⟨⟨h.queued, h.agreed⟩, List.prefix_refl _, rfl⟩
  | command => exact ⟨⟨h.queued, h.agreed⟩, List.prefix_refl _, rfl⟩
  | killed => exact ⟨⟨h.queued, h.agreed⟩, List.prefix_refl _, rfl⟩

theorem wiring_steps
    (steps : Relation.ReflTransGen (ChildStep (AttachParent.childBranch options)) w w')
    (h : Wiring w) : Wiring w' ∧ w.childLog <+: w'.childLog ∧ w'.parentLog = w.parentLog := by
  induction steps with
  | refl => exact ⟨h, List.prefix_refl _, rfl⟩
  | tail _ step ih =>
      obtain ⟨hmid, hprefix, hsame⟩ := ih
      obtain ⟨hnext, hprefix', hsame'⟩ := wiring_step step hmid
      exact ⟨hnext, hprefix.trans hprefix', hsame'.trans hsame⟩

theorem Told.mono {n : Nat} (h : Told n w) (hlonger : w.childLog <+: w'.childLog) :
    Told n w' := by
  obtain ⟨message, files, hmem, hlength⟩ := h
  exact ⟨message, files, hlonger.subset hmem, hlength⟩

/-- A call of the parent beside its child. -/
theorem wiring_beside {c : Syscall} {r : c.Answer}
    (step : beside childPid (AttachParent.childBranch options) w c r w') (h : Wiring w) :
    Wiring w' ∧ w.childLog <+: w'.childLog ∧ w'.parentLog = w.parentLog ++ [⟨c, r⟩] ∧
      ∀ length message, (⟨c, r⟩ : Event linux) = ⟨.recvmsg length, .ok message⟩ →
        message = ([], []) ∨ Told message.2.length w' := by
  obtain ⟨w₁, w₂, steps, answer, rfl⟩ := step
  obtain ⟨h₁, hlonger, hsame⟩ := wiring_steps steps h
  have hrest : w₂.childLog = w₁.childLog ∧ w₂.parentLog = w₁.parentLog ∧
      ∀ message ∈ w₂.queue, message ∈ w₁.queue := by
    cases answer with
    | message length queued same =>
        refine ⟨rfl, rfl, fun message hmem => ?_⟩
        rw [queued]
        exact List.mem_cons_of_mem _ hmem
    | _ => exact ⟨rfl, rfl, fun _ => id⟩
  obtain ⟨hchild, hparent, hqueue⟩ := hrest
  refine ⟨⟨?_, ?_⟩, ?_, ?_, ?_⟩
  · intro message hmem
    rw [hchild]
    exact h₁.queued message (hqueue message hmem)
  · rw [hchild]
    exact h₁.agreed
  · rw [hchild]
    exact hlonger
  · rw [hparent, hsame]
  · intro length message heq
    cases heq
    cases answer with
    | @message sent rest files length queued same =>
        refine .inr ⟨sent.1, sent.2, ?_, same.symm⟩
        exact h₁.queued sent (by rw [queued]; exact List.mem_cons_self)
    | endOfFile => exact .inl rfl
    | other r unrelated => exact unrelated.elim

/-- The parent forwards a PTY if and only if the standard files of the child are at it. -/
def Matches (w : World) : Syscall → Prop
  | .dropSocket _ | .recvmsg _ => True
  | c =>
      ∃ master : Option Fd,
        (∀ fd ∈ [stdin, stdout, stderr], (viewOf w.childLog).stdio.terminal fd = master) ∧
          (master.isSome ↔ ∃ c' ∈ w.parentLog.map Sigma.fst ++ [c], Forwards c')

theorem matches_of_told {n : Nat} {c : Syscall} (h : Wiring w) (htold : Told n w)
    (hforwards : 0 < n ↔ ∃ c' ∈ w.parentLog.map Sigma.fst ++ [c], Forwards c') : Matches w c := by
  obtain ⟨message, files, hmem, hlength⟩ := htold
  obtain ⟨-, master, hmaster, hfiles⟩ := h.agreed message files hmem
  have hsome : master.isSome ↔ 0 < n := by
    rw [← hlength, hfiles]
    cases master <;> simp
  unfold Matches
  split
  · trivial
  · trivial
  · exact ⟨master, hmaster, hsome.trans hforwards⟩

/-- The parent has not forwarded anything yet. -/
def Silent (w : World) : Prop := ∀ ev ∈ w.parentLog, ¬Forwards ev.1

theorem Silent.snoc {c : Syscall} {r : c.Answer} (h : Silent w) (hc : ¬Forwards c)
    (hlog : w'.parentLog = w.parentLog ++ [⟨c, r⟩]) : Silent w' := by
  intro ev hmem
  rw [hlog] at hmem
  rcases List.mem_append.mp hmem with hmem | hmem
  · exact h ev hmem
  · rw [List.mem_singleton.mp hmem]
    exact hc

theorem waitForChild_matches (h : Wiring w) (htold : Told 0 w) (hsilent : Silent w) :
    (waitForChild childPid).wp (beside childPid (AttachParent.childBranch options)) Matches
      (fun _ _ => True) w := by
  have hwaits : ∀ c, Waits c → ¬Forwards c := by
    intro c hc hforwards
    cases c <;> first | exact hc.elim | exact hforwards.elim
  refine Program.wp_post ((waitForChild_waits childPid).wp
    (I := fun w => Wiring w ∧ Told 0 w ∧ Silent w) ?_ ?_ ⟨h, htold, hsilent⟩) fun _ _ _ => trivial
  · rintro w c ⟨h, htold, hsilent⟩ hc
    refine matches_of_told h htold ⟨fun hlt => absurd hlt (Nat.lt_irrefl 0), ?_⟩
    rintro ⟨c', hmem, hforwards⟩
    rcases List.mem_append.mp hmem with hmem | hmem
    · obtain ⟨ev, hev, rfl⟩ := List.mem_map.mp hmem
      exact absurd hforwards (hsilent ev hev)
    · rw [List.mem_singleton.mp hmem] at hforwards
      exact absurd hforwards (hwaits c hc)
  · rintro w c r w' ⟨h, htold, hsilent⟩ hc step
    obtain ⟨h', hprefix, hlog, -⟩ := wiring_beside step h
    exact ⟨h', htold.mono hprefix, hsilent.snoc (hwaits c hc) hlog⟩

theorem forwardPtyAndWait_matches {n : Nat} (h : Wiring w) (htold : Told (n + 1) w) (pty : Fd) :
    (forwardPtyAndWait pty childPid).wp (beside childPid (AttachParent.childBranch options))
      Matches (fun _ _ => True) w := by
  have hisatty : Forwards (.isatty stdin) := trivial
  refine ⟨matches_of_told h htold ⟨fun _ => ⟨_, by simp, hisatty⟩, fun _ => n.succ_pos⟩, ?_⟩
  rintro isTty w' step
  obtain ⟨h', hprefix, hlog, -⟩ := wiring_beside step h
  have hsome : ∃ ev ∈ w'.parentLog, Forwards ev.1 :=
    ⟨⟨.isatty stdin, isTty⟩, by rw [hlog]; simp, hisatty⟩
  refine Program.wp_post (((forwardPtyAndWait_supervises pty childPid).2 isTty).wp
    (I := fun w => Wiring w ∧ Told (n + 1) w ∧ ∃ ev ∈ w.parentLog, Forwards ev.1) ?_ ?_
    ⟨h', htold.mono hprefix, hsome⟩) fun _ _ _ => trivial
  · rintro w c ⟨h, htold, ev, hmem, hforwards⟩ -
    refine matches_of_told h htold ⟨fun _ => ⟨ev.1, ?_, hforwards⟩, fun _ => n.succ_pos⟩
    exact List.mem_append_left _ (List.mem_map.mpr ⟨ev, hmem, rfl⟩)
  · rintro w c r w' ⟨h, htold, ev, hmem, hforwards⟩ - step
    obtain ⟨h', hprefix, hlog, -⟩ := wiring_beside step h
    refine ⟨h', htold.mono hprefix, ev, ?_, hforwards⟩
    rw [hlog]
    exact List.mem_append_left _ hmem

theorem parentBranch_matches :
    (AttachParent.parentBranch childPid).wp
      (beside childPid (AttachParent.childBranch options)) Matches (fun _ _ => True)
      World.forked := by
  have hforked : Wiring World.forked := ⟨by simp [World.forked], by simp [World.forked]⟩
  have hsilent : Silent World.forked := by simp [Silent, World.forked]
  refine ⟨trivial, ?_⟩
  rintro _ w step
  obtain ⟨h, -, hlog, -⟩ := wiring_beside step hforked
  have hsilent := hsilent.snoc (c := .dropSocket .child) id hlog
  show Program.wp _ _ (((ReadySocket.receive 1).mapError _).bind _) _ _
  rw [Program.wp_bind, Program.wp_mapError]
  refine ⟨fun _ w => Wiring w ∧ Silent w, ⟨h, hsilent⟩, ?_⟩
  rintro ⟨⟩ w ⟨h, hsilent⟩
  refine ⟨trivial, ?_⟩
  rintro r w' step
  obtain ⟨h', -, hlog, hmessage⟩ := wiring_beside step h
  have hsilent' := hsilent.snoc (c := .recvmsg 1) id hlog
  rcases r with e | message
  · show Program.wp _ _ (if e = .again ∨ e = .intr then _ else _) _ _
    split
    · exact ⟨h', hsilent'⟩
    · trivial
  · show Program.wp _ _ (AttachParent.manageChild childPid message) _ _
    rw [AttachParent.manageChild]
    split
    · trivial
    next hready =>
    have htold : Told message.2.length w' := by
      refine (hmessage 1 message rfl).resolve_left ?_
      rintro rfl
      exact hready (by simp)
    cases hfiles : message.2 with
    | nil =>
        rw [hfiles] at htold
        refine (Program.wp_mapError _ _ _ _).mpr ?_
        exact Program.wp_post (waitForChild_matches h' htold hsilent') fun _ _ _ => trivial
    | cons pty files =>
        rw [hfiles] at htold
        refine (Program.wp_mapError _ _ _ _).mpr ?_
        exact Program.wp_post (forwardPtyAndWait_matches h' htold pty) fun _ _ _ => trivial

/-- In every interleaving of the two processes, the parent waits for its child without
forwarding anything when the standard files of the child are its own, and forwards the
PTY when all of them are at the slave of the one that the child has made. -/
theorem forwards_iff_attached {c : Syscall}
    (issue : (AttachParent.parentBranch childPid).Issues
      (beside childPid (AttachParent.childBranch options)) World.forked c w) : Matches w c :=
  issue.of_wp parentBranch_matches

end World

section Example

/-- A child that is let run goes on as in any run of its program. -/
theorem childSteps_of_runs {ε : Type} {child : Sys ε Empty} {w : World} {seg more : Log}
    {o : Outcome Halt ε Empty} (halive : w.life = .alive) (hunexecuted : w.executed = false)
    (run : child.Runs (tracing linux) [] o (w.childLog ++ seg ++ more)) :
    Relation.ReflTransGen (ChildStep child) w
      { w with childLog := w.childLog ++ seg, queue := w.queue ++ seg.flatMap sentBy } := by
  induction seg generalizing w with
  | nil =>
      rw [List.append_nil, List.flatMap_nil, List.append_nil]
  | cons ev seg ih =>
      obtain ⟨c, r⟩ := ev
      have issue : child.Issues (tracing linux) [] c w.childLog :=
        ForkingPrograms.issues_of_runs run (r := r) w.childLog (seg ++ more) (by simp)
      have hnext := ih (w := { w with
        childLog := w.childLog ++ [⟨c, r⟩], queue := w.queue ++ sentBy ⟨c, r⟩ })
        halive hunexecuted (by simpa using run)
      simp only [List.append_assoc, List.singleton_append] at hnext
      rw [List.flatMap_cons]
      exact .head (.call r halive hunexecuted issue) hnext

/-- A host with a terminal, on which whatever is needed succeeds. -/
def withTerminal : (c : Syscall) → c.Answer
  | .isatty _ => true
  | .openpt => .ok 5
  | .grantpt _ | .unlockpt _ | .setsid => .ok ()
  | .ptsname _ => .ok (ascii "/dev/pts/1")
  | .openTerminal _ => .ok 6
  | .dup2 _ _ => .ok ()
  | .openLines _ => .ok []
  | .readDir _ => .ok [.ok (ascii "mnt")]
  | .openFile _ _ | .createDirAll _ | .unshareMount | .makeMountsPrivate => .ok ()
  | .nextSplit _ _ | .nextLine _ => .ok none
  | .readLink _ => .ok (ascii "/")
  | .mountTmpfs _ | .sendmsg _ _ | .setns _ _ => .ok ()
  | .openNamespace _ _ _ => .ok 7
  | .readContainerRoot => .ok []
  | .setThreadGroups | .setThreadGid _ | .setThreadUid _ => .ok ()
  | c => c.refused

def plainOptions : ChildOptions where
  command := none
  arguments := []
  processStatus := ⟨someTarget, 0, 0, 0, 0, none⟩
  usernsFd := none
  effectiveHome := none

theorem exists_attached : ∃ o log,
    (AttachParent.childBranch plainOptions).Runs (tracing linux) [] o log ∧
      log.flatMap sentBy = [(ascii "R", [5])] := by
  have hplay : ((AttachParent.childBranch plainOptions).replay (fun _ => withTerminal) 8 []).any
      (fun r => r.2.flatMap sentBy = [(ascii "R", [5])]) = true := by
    decide +kernel
  obtain ⟨⟨o, log⟩, hrun, hend⟩ := (Option.any_eq_true _ _).mp hplay
  exact ⟨o, log, Program.Runs.of_replay (fun _ => withTerminal) 8 hrun, of_decide_eq_true hend⟩

/-- The parent that has received a descriptor forwards. -/
theorem forwards_iff_attached_tty :
    ∃ w, (AttachParent.parentBranch somePid).Issues
        (beside somePid (AttachParent.childBranch plainOptions)) World.forked (.isatty stdin) w ∧
      Matches w (.isatty stdin) := by
  obtain ⟨o, log, run, hsent⟩ := exists_attached
  let dropped : World :=
    { World.forked with parentHoldsChildEnd := false, parentLog := [⟨.dropSocket .child, ()⟩] }
  have hdropped : beside somePid (AttachParent.childBranch plainOptions) World.forked
      (.dropSocket .child) () dropped := ⟨_, _, .refl, .closed _, rfl⟩
  have hrun : (AttachParent.childBranch plainOptions).Runs (tracing linux) [] o
      (dropped.childLog ++ log ++ []) := by
    simpa [dropped, World.forked] using run
  have steps := childSteps_of_runs rfl rfl hrun
  let told : World :=
    { dropped with
      childLog := dropped.childLog ++ log, queue := dropped.queue ++ log.flatMap sentBy }
  have hqueue : told.queue = (ascii "R", [5]) :: [] := hsent
  have hreceived : Answers somePid told (.recvmsg 1) (.ok ((ascii "R").take 1, [9]))
      { told with queue := [] } := .message 1 hqueue rfl
  let received : World := { told with
    queue := [],
    parentLog := dropped.parentLog ++ [⟨.recvmsg 1, .ok ((ascii "R").take 1, [9])⟩] }
  have hasked : beside somePid (AttachParent.childBranch plainOptions) dropped (.recvmsg 1)
      (.ok ((ascii "R").take 1, [9])) received := ⟨_, _, steps, hreceived, rfl⟩
  have issue : (AttachParent.parentBranch somePid).Issues
      (beside somePid (AttachParent.childBranch plainOptions)) World.forked (.isatty stdin)
      received :=
    .later hdropped (.leave (.ask hasked (.stop _ _)) (.here _))
  exact ⟨_, issue, forwards_iff_attached issue⟩

end Example

end Cntr.PtyAgreement
