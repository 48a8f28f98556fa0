import Cntr.ParentSupervision

namespace Cntr.HelperCleanup

open Cntr.ByteText
open Cntr.CallTree
open Cntr.SystemCalls
open Cntr.AttachChild (AttachError ChildOptions)
open Cntr.AttachParent
open Cntr.CallsMade
open Cntr.ContainerSetup (ProcStatus plainStatus)
open Cntr.IdmapHelperProcess
open Cntr.ParentSupervision
open Cntr.PtySession
open Cntr.WaitedChild

inductive HelperState where
  | absent
  | running (pid : Pid)
  | killed (pid : Pid)
  | reaped (pid : Pid)
  deriving DecidableEq

/-- The first process that is forked is the helper. -/
def HelperState.after : HelperState → Event linux → HelperState
  | .absent, ⟨.fork, .ok (.parentOf pid)⟩ => .running pid
  | .running pid, ⟨.kill target sig, .ok _⟩ =>
      if target = pid ∧ sig = .kill then .killed pid else .running pid
  | .killed pid, ⟨.waitpid target _, .ok (some _)⟩ =>
      if target = pid then .reaped pid else .killed pid
  | state, _ => state

def helperState (log : Log) : HelperState := log.foldl HelperState.after .absent

def NoHelperLeft (log : Log) : Prop :=
  helperState log = .absent ∨ ∃ pid, helperState log = .reaped pid

/-- What the process that creates the helper sees: it is no child of its own
forks; the helper, until it is reaped, can be killed; and once it is killed, a
wait for it reports its end, unless a signal interrupts the wait. -/
def Possible (log : Log) : Event linux → Prop
  | ⟨.fork, .ok .child⟩ => False
  | ⟨.kill pid _, r⟩ => helperState log = .running pid → r = .ok ()
  | ⟨.waitpid pid false, r⟩ =>
      helperState log = .killed pid → (∃ status, r = .ok (some status)) ∨ r = .error .intr
  | _ => True

def Forked (log : Log) : Prop := ∃ pid, ⟨.fork, .ok (.parentOf pid)⟩ ∈ log

/-- The helper has sent its byte, and its namespace could be opened. -/
def SetUp (log : Log) : Prop :=
  ∃ fd buf, ⟨.read (.syncPipe fd) 1, .ok buf⟩ ∈ log ∧ buf.val.length = 1 ∧
    ∃ path pid ns, ⟨.openNamespace path pid .user, .ok ns⟩ ∈ log

def EndReport : Event linux → Prop
  | ⟨.waitpid _ true, .ok (some (.exited _))⟩ => True
  | ⟨.waitpid _ true, .ok (some (.signaled _))⟩ => True
  | _ => False

def ChildEnded (log : Log) : Prop := ∃ ev ∈ log, EndReport ev

def DropInterrupted (log : Log) : Prop := ∃ pid, ⟨.waitpid pid false, .error .intr⟩ ∈ log

/-- Either no helper was forked, or it was set up, the attached child is not
reported to have ended, and the wait for the helper is not interrupted. -/
def Reapable (log : Log) : Prop :=
  ¬Forked log ∨ (SetUp log ∧ ¬ChildEnded log ∧ ¬DropInterrupted log)

/-- The calls that neither kill the helper nor wait for it. -/
def Spares : Syscall → Prop
  | .kill _ sig => sig = .cont
  | .waitpid _ untraced => untraced = true
  | _ => True

theorem spares_of_supervises {c : Syscall} (h : Supervises c) : Spares c := by
  cases c <;> first | trivial | (rcases h with h | h <;> first | exact h | exact h.elim)

section Events

variable {pid : Pid} {log seg : Log}

@[simp] theorem helperState_snoc (log : Log) (ev : Event linux) :
    helperState (log ++ [ev]) = (helperState log).after ev := by
  simp [helperState]

theorem childEnded_append (log seg : Log) :
    ChildEnded (log ++ seg) ↔ ChildEnded log ∨ ChildEnded seg := by
  constructor
  · rintro ⟨ev, hmem, hreport⟩
    rcases List.mem_append.mp hmem with hmem | hmem
    · exact .inl ⟨ev, hmem, hreport⟩
    · exact .inr ⟨ev, hmem, hreport⟩
  · rintro (⟨ev, hmem, hreport⟩ | ⟨ev, hmem, hreport⟩)
    · exact ⟨ev, List.mem_append_left _ hmem, hreport⟩
    · exact ⟨ev, List.mem_append_right _ hmem, hreport⟩

theorem not_endReport_of_attends {ev : Event linux} (h : Attends ev.1) : ¬EndReport ev := by
  obtain ⟨c, r⟩ := ev
  cases c <;> first | exact h.elim | exact id

theorem not_childEnded_of_attends (h : ∀ ev ∈ seg, Attends ev.1) : ¬ChildEnded seg := by
  rintro ⟨ev, hmem, hreport⟩
  exact not_endReport_of_attends (h ev hmem) hreport

theorem not_childEnded_waited (childPid : Pid) (rounds : List WaitRound) :
    ¬ChildEnded (waited childPid rounds) := by
  rintro ⟨ev, hmem, hreport⟩
  obtain ⟨round, -, hmem⟩ := List.mem_flatMap.mp hmem
  cases round <;> simp [WaitRound.log, stopReport] at hmem
  · rw [hmem] at hreport
    exact hreport
  · rw [hmem] at hreport
    exact hreport
  · rcases hmem with rfl | rfl | rfl <;> exact hreport

theorem childEnded_of_ended {childPid : Pid} {o : Outcome Halt PtyError Empty} {last : Log}
    (h : Ended childPid o last) : ChildEnded last ↔ ∃ e, o = .halted e := by
  cases h <;> simp [ChildEnded, EndReport]

theorem childEnded_of_attachEnded {childPid : Pid} {before : Log}
    {o : Outcome Halt AttachError Empty} (h : AttachEnded childPid before o log)
    (hbefore : ¬ChildEnded before) : ChildEnded log ↔ ∃ e, o = .halted e := by
  cases h with
  | receiveFailed hattends hhard hfailed hnone =>
      simp [childEnded_append, hbefore, not_childEnded_of_attends hattends]
  | notReady hattends honly hother =>
      simp [childEnded_append, hbefore, not_childEnded_of_attends hattends]
  | @supervised seg _ _ o _ _ hwaited =>
      obtain ⟨hattends, rounds, last, rfl, hended⟩ := hwaited
      have hnone : ¬ChildEnded (before ++ seg) := by
        simp [childEnded_append, hbefore, not_childEnded_of_attends hattends]
      rw [childEnded_append (before ++ seg), childEnded_append (waited childPid rounds),
        childEnded_of_ended hended]
      have hhalted : (∃ e, o.mapError AttachError.pty = .halted e) ↔ ∃ e, o = .halted e := by
        cases o <;> simp [Outcome.mapError]
      rw [hhalted]
      simp [hnone, not_childEnded_waited]

theorem helperState_of_spares (h : helperState log = .running pid)
    (hseg : ∀ ev ∈ seg, Spares ev.1) : helperState (log ++ seg) = .running pid := by
  induction seg generalizing log with
  | nil => rwa [List.append_nil]
  | cons ev seg ih =>
      have hafter : helperState (log ++ [ev]) = .running pid := by
        rw [helperState_snoc, h]
        have hev := hseg ev (by simp)
        obtain ⟨c, r⟩ := ev
        cases c with
        | kill target sig =>
            obtain rfl : sig = .cont := hev
            cases r with
            | error e => rfl
            | ok _ =>
                rw [HelperState.after, if_neg]
                rintro ⟨-, hsig⟩
                cases hsig
        | _ => rfl
      have hrest := ih hafter fun ev' hev' => hseg ev' (by simp [hev'])
      rwa [List.append_assoc, List.singleton_append] at hrest

theorem SetUp.append (h : SetUp log) (seg : Log) : SetUp (log ++ seg) := by
  obtain ⟨fd, buf, hread, hlength, path, pid, ns, hopen⟩ := h
  exact ⟨fd, buf, List.mem_append_left _ hread, hlength, path, pid, ns,
    List.mem_append_left _ hopen⟩

theorem Forked.append (h : Forked log) (seg : Log) : Forked (log ++ seg) := by
  obtain ⟨pid, hfork⟩ := h
  exact ⟨pid, List.mem_append_left _ hfork⟩

end Events

/-- The helper is running under its owner, and nothing was waited for. -/
structure Owned (pid : Pid) (log : Log) : Prop where
  running : helperState log = .running pid
  forked : Forked log
  setUp : SetUp log
  unwaited : ∀ pid untraced r, ⟨.waitpid pid untraced, r⟩ ∉ log

def Decided (log : Log) : Prop := NoHelperLeft log ↔ Reapable log

/-- The helper exists when its owner does; if there is none, all is decided. -/
def Created : Outcome Halt AttachError (Option IdmapHelper) → Log → Prop
  | .value (some helper), log => Owned helper.pid log
  | .error _, log => Decided log
  | _, _ => False

theorem decided_of_unforked {log : Log} (hstate : helperState log = .absent)
    (hforked : ¬Forked log) : Decided log := by
  constructor
  · intro _
    exact .inl hforked
  · intro _
    exact .inl hstate

theorem decided_of_left {log : Log} {pid : Pid}
    (hstate : helperState log = .running pid ∨ helperState log = .killed pid)
    (hreapable : ¬Reapable log) : Decided log := by
  constructor
  · intro h
    rcases h with h | ⟨pid', h⟩ <;> simp [h] at hstate
  · intro h
    exact absurd h hreapable

/-- The calls that are made before the helper is waited for. -/
def Prepares : Syscall → Prop
  | .getuid | .getgid | .pipe | .fork | .closeFd _ => True
  | _ => False

theorem SetUp.of_append {log seg : Log} (hprepares : ∀ ev ∈ log, Prepares ev.1)
    (h : SetUp (log ++ seg)) : SetUp seg := by
  obtain ⟨fd, buf, hread, hlength, path, pid, ns, hopen⟩ := h
  refine ⟨fd, buf, ?_, hlength, path, pid, ns, ?_⟩
  · exact (List.mem_append.mp hread).resolve_left (hprepares _)
  · exact (List.mem_append.mp hopen).resolve_left (hprepares _)

theorem helperState_keeps {log seg : Log} {child : Pid} (ev : Event linux)
    (hrunning : helperState (log ++ seg) = .running child)
    (hafter : HelperState.after (.running child) ev = .running child) :
    helperState (log ++ (seg ++ [ev])) = .running child := by
  rw [← List.append_assoc, helperState_snoc, hrunning, hafter]

theorem awaitHelper_wp {child : Pid} {readFd writeFd : Fd} {log : Log}
    (hstate : helperState log = .running child) (hforked : Forked log)
    (hprepares : ∀ ev ∈ log, Prepares ev.1) :
    (awaitHelper child readFd writeFd).wp (recording Possible) (fun _ _ => True)
      (fun o log' => o.andThen (fun helper log' => helper.pid = child ∧ Owned child log')
        (fun o log' => Decided log' ∧ ∀ h, o ≠ (.halted h : Outcome Halt IdmapError IdmapHelper))
        log') log := by
  have hfails : ∀ (seg : Log) (e : IdmapError), helperState (log ++ seg) = .running child →
      ¬SetUp seg → Decided (log ++ seg) ∧
        ∀ h, (.error e : Outcome Halt IdmapError IdmapHelper) ≠ .halted h := by
    intro seg e hrunning hsetUp
    refine ⟨decided_of_left (.inl hrunning) ?_, fun h hh => (by cases hh)⟩
    rintro (hnone | ⟨h, -, -⟩)
    · exact hnone (hforked.append seg)
    · exact hsetUp (h.of_append hprepares)
  rw [awaitHelper, Program.bind_eq, Program.wp_call_recording]
  refine ⟨trivial, fun _ _ => ?_⟩
  have hclosed : helperState (log ++ [⟨.closeFd writeFd, ()⟩]) = .running child := by
    rw [helperState_snoc, hstate]
    rfl
  rw [Program.bind_eq, Program.wp_call_recording]
  refine ⟨trivial, ?_⟩
  rintro (e | buf) _
  · rw [List.append_assoc]
    apply hfails
    · exact helperState_keeps _ hclosed rfl
    · rintro ⟨fd, buf, hread, -⟩
      simp at hread
  simp only [Program.ofExcept, Program.bind_eq, Program.done_bind]
  rw [List.append_assoc]
  have hread := helperState_keeps ⟨.read (.syncPipe readFd) 1, .ok buf⟩ hclosed rfl
  by_cases hlength : buf.val.length ≠ 1
  · rw [if_pos hlength]
    apply hfails _ _ hread
    rintro ⟨fd, buf', hmem, hlength', -⟩
    simp only [List.cons_append, List.nil_append, List.mem_cons, List.not_mem_nil,
      or_false] at hmem
    rcases hmem with hmem | hmem
    · cases hmem
    · cases hmem
      exact hlength hlength'
  rw [if_neg hlength, Program.wp_call_recording]
  refine ⟨trivial, fun _ _ => ?_⟩
  rw [List.append_assoc, Program.wp_call_recording]
  have hreclosed := helperState_keeps ⟨.closeFd readFd, ()⟩ hread rfl
  refine ⟨trivial, ?_⟩
  rintro (e | ns) _
  · rw [List.append_assoc]
    apply hfails
    · exact helperState_keeps _ hreclosed rfl
    · rintro ⟨fd, buf', -, -, path, pid, ns, hopen⟩
      simp at hopen
  · rw [List.append_assoc]
    refine ⟨rfl, ?_, ?_, ?_, ?_⟩
    · exact helperState_keeps _ hreclosed rfl
    · exact hforked.append _
    · exact ⟨readFd, buf, by simp, of_not_not hlength, ascii "/proc", child, ns, by simp⟩
    · intro pid untraced r hmem
      rcases List.mem_append.mp hmem with hmem | hmem
      · exact hprepares _ hmem
      · simp at hmem

theorem createHelper_wp (user : User) :
    (createHelper (some user)).wp (recording Possible) (fun _ _ => True) Created [] := by
  rw [createHelper, Program.bind_eq, Program.wp_call_recording]
  refine ⟨trivial, fun uid _ => ?_⟩
  rw [Program.bind_eq, Program.wp_call_recording]
  refine ⟨trivial, fun gid _ => ?_⟩
  rw [Program.bind_eq, Program.wp_bind, Program.wp_mapError, IdmapHelper.new, Program.bind_eq,
    Program.wp_call_recording]
  refine ⟨trivial, ?_⟩
  rintro (e | ⟨readFd, writeFd⟩) _
  · exact decided_of_unforked rfl (by simp [Forked])
  simp only [Program.ofExcept, Program.bind_eq, Program.done_bind, Program.wp_call_recording]
  refine ⟨trivial, ?_⟩
  rintro (e | _ | child) hfork
  · exact decided_of_unforked rfl (by simp [Forked])
  · exact hfork.elim
  have hawait : (awaitHelper child readFd writeFd).wp (recording Possible) (fun _ _ => True) _
      [⟨.getuid, uid⟩, ⟨.getgid, gid⟩, ⟨.pipe, .ok (readFd, writeFd)⟩,
        ⟨.fork, .ok (.parentOf child)⟩] :=
    awaitHelper_wp rfl ⟨child, by simp⟩ (by simp [Prepares])
  refine Program.wp_post hawait fun o log ho => ?_
  cases o with
  | value helper =>
      obtain ⟨rfl, h⟩ := ho
      exact h
  | error e => exact ho.1
  | halted h => exact absurd rfl (ho.2 h)

theorem Owned.unended {pid : Pid} {log : Log} (h : Owned pid log) : ¬ChildEnded log := by
  rintro ⟨⟨c, r⟩, hmem, hreport⟩
  cases c with
  | waitpid pid untraced => exact h.unwaited _ _ _ hmem
  | _ => exact hreport

/-- The events of the creating process while the child is attached. -/
def Attached (log : Log) (o : Outcome Halt AttachError Empty) (log' : Log) : Prop :=
  (∃ seg, log' = log ++ seg ∧ ∀ ev ∈ seg, Spares ev.1) ∧
    (ChildEnded log' ↔ ∃ e, o = .halted e)

theorem parentBranch_attached {childPid : Pid} {log : Log} (hended : ¬ChildEnded log)
    (hunwaited : ∀ sig, stopReport childPid sig ∉ log) :
    (parentBranch childPid).wp (recording Possible) (fun _ _ => True) (Attached log) log := by
  have hframe : (parentBranch childPid).wp (recording Possible) (fun _ _ => True)
      (fun o log' => ∃ seg, log' = log ++ seg ∧ (∀ ev ∈ seg, Supervises ev.1) ∧
        ∀ h, o = .halted h → h ≠ .executed) log :=
    (attachParentBranch_supervises childPid).wp_log (fun _ _ _ _ answer => answer.1)
      fun _ _ _ _ => trivial
  have hends : (parentBranch childPid).wp (recording Possible) _ _ _ :=
    Program.wp_recording (attachParentBranch_wp hunwaited)
  refine Program.wp_post
    (Program.wp_and hframe (Program.wp_mono (fun _ _ _ => trivial) _ (fun _ _ h => h) hends))
    fun o log' ho => ?_
  obtain ⟨⟨seg, hlog, hseg, -⟩, hended'⟩ := ho
  exact ⟨⟨seg, hlog, fun ev hev => spares_of_supervises (hseg ev hev)⟩,
    childEnded_of_attachEnded hended' hended⟩

/-- While the child is attached the helper keeps running, and the parent returns
to its owner unless it has learnt that the child has ended. -/
theorem attachWithHelper_wp (options : ChildOptions) {pid : Pid} {log : Log}
    (h : Owned pid log) :
    (attachWithHelper options).wp (recording Possible) (fun _ _ => True) (Attached log) log := by
  have hfails : ∀ seg e, (∀ ev ∈ seg, Spares ev.1) → ¬ChildEnded seg →
      Attached log (.error e) (log ++ seg) := by
    intro seg e hseg hended
    refine ⟨⟨seg, rfl, hseg⟩, ?_⟩
    simp [childEnded_append, h.unended, hended]
  rw [attachWithHelper, Program.bind_eq, Program.wp_bind, Program.wp_mapError,
    ReadySocket.socketPair, Program.bind_eq, Program.wp_call_recording]
  refine ⟨trivial, ?_⟩
  rintro (e | _) _
  · exact hfails _ _ (by simp [Spares]) (by simp [ChildEnded, EndReport])
  simp only [Program.ofExcept, Outcome.mapError, Program.wp_stop, Outcome.andThen_value,
    Program.bind_eq, Program.wp_call_recording]
  refine ⟨trivial, ?_⟩
  rintro (e | _ | childPid) hfork
  · rw [List.append_assoc]
    exact hfails _ _ (by simp [Spares]) (by simp [ChildEnded, EndReport])
  · exact hfork.elim
  rw [List.append_assoc]
  have hended : ¬ChildEnded (log ++ ([⟨.socketpair, .ok ()⟩] ++
      [⟨.fork, .ok (.parentOf childPid)⟩])) := by
    rw [childEnded_append]
    rintro (hended | hended)
    · exact h.unended hended
    · simp [ChildEnded, EndReport] at hended
  have hunwaited : ∀ sig, stopReport childPid sig ∉ log ++ ([⟨.socketpair, .ok ()⟩] ++
      [⟨.fork, .ok (.parentOf childPid)⟩]) := by
    intro sig hmem
    rcases List.mem_append.mp hmem with hmem | hmem
    · exact h.unwaited _ _ _ hmem
    · simp [stopReport] at hmem
  refine Program.wp_post (parentBranch_attached hended hunwaited) fun o log' ho => ?_
  obtain ⟨⟨seg, rfl, hseg⟩, hiff⟩ := ho
  refine ⟨⟨_, List.append_assoc _ _ _, fun ev hev => ?_⟩, hiff⟩
  rcases List.mem_append.mp hev with hev | hev
  · simp only [List.singleton_append, List.mem_cons, List.not_mem_nil, or_false] at hev
    rcases hev with rfl | rfl <;> trivial
  · exact hseg ev hev

/-- The owner kills the helper and reaps it, unless the wait is interrupted. -/
theorem drop_wp {helper : IdmapHelper} {log : Log} (hstate : helperState log = .running helper.pid)
    (hforked : Forked log) (hsetUp : SetUp log) (hended : ¬ChildEnded log)
    (hundropped : ∀ pid r, ⟨.waitpid pid false, r⟩ ∉ log) :
    (helper.drop : Sys AttachError Unit).wp (recording Possible) (fun _ _ => True)
      (fun o log' => o = .value () ∧ Decided log') log := by
  rw [IdmapHelper.drop, Program.bind_eq, Program.wp_call_recording]
  refine ⟨trivial, fun killed hkilled => ?_⟩
  obtain rfl : killed = .ok () := hkilled hstate
  have hdead : helperState (log ++ [⟨.kill helper.pid .kill, .ok ()⟩]) = .killed helper.pid := by
    rw [helperState_snoc, hstate]
    simp [HelperState.after]
  rw [Program.bind_eq, Program.wp_call_recording]
  refine ⟨trivial, fun r hr => ⟨rfl, ?_⟩⟩
  rcases hr hdead with ⟨status, rfl⟩ | rfl
  · have hreaped : NoHelperLeft (log ++ [⟨.kill helper.pid .kill, .ok ()⟩] ++
        [⟨.waitpid helper.pid false, .ok (some status)⟩]) := by
      refine .inr ⟨helper.pid, ?_⟩
      rw [helperState_snoc, hdead]
      simp [HelperState.after]
    refine iff_of_true hreaped (.inr ⟨?_, ?_, ?_⟩)
    · rw [List.append_assoc]
      exact hsetUp.append _
    · rw [List.append_assoc, childEnded_append]
      rintro (h | h)
      · exact hended h
      · simp [ChildEnded, EndReport] at h
    · rintro ⟨pid, hmem⟩
      simp [hundropped] at hmem
  · have hkept : helperState (log ++ [⟨.kill helper.pid .kill, .ok ()⟩] ++
        [⟨.waitpid helper.pid false, .error .intr⟩]) = .killed helper.pid := by
      rw [helperState_snoc, hdead]
      rfl
    apply decided_of_left (.inr hkept)
    rintro (hnone | ⟨-, -, huninterrupted⟩)
    · rw [List.append_assoc] at hnone
      exact hnone (hforked.append _)
    · exact huninterrupted ⟨helper.pid, by simp⟩

theorem attach_wp {opts : AttachOptions} {user : User} (huser : opts.effectiveUser = some user)
    (processStatus : ProcStatus) :
    (attach opts processStatus).wp (recording Possible) (fun _ _ => True)
      (fun _ log => Decided log) [] := by
  rw [attach, huser, Program.bind_eq]
  refine Program.wp_seq (createHelper_wp user) fun o log ho => ?_
  rcases o with (_ | helper) | e | h
  · exact ho.elim
  · rw [Outcome.andThen_value, Program.bind_eq, Program.wp_bind, Program.wp_attempt]
    refine Program.wp_post (attachWithHelper_wp _ ho) fun o log' hattached => ?_
    obtain ⟨⟨seg, rfl, hseg⟩, hended⟩ := hattached
    have hrunning := helperState_of_spares ho.running hseg
    cases o with
    | value never => exact nomatch never
    | error e =>
        have hunended : ¬ChildEnded (log ++ seg) := by
          rw [hended]
          rintro ⟨h, hh⟩
          cases hh
        have hundropped : ∀ pid r, ⟨.waitpid pid false, r⟩ ∉ log ++ seg := by
          intro pid r hmem
          rcases List.mem_append.mp hmem with hmem | hmem
          · exact ho.unwaited _ _ _ hmem
          · cases hseg _ hmem
        rw [Outcome.attempt, Outcome.andThen_value, Program.bind_eq]
        refine Program.wp_seq
          (drop_wp hrunning (ho.forked.append seg) (ho.setUp.append seg) hunended hundropped)
          fun o log' hdropped => ?_
        obtain ⟨rfl, hdecided⟩ := hdropped
        exact hdecided
    | halted h =>
        refine decided_of_left (.inl hrunning) ?_
        rintro (hnone | ⟨-, hunended, -⟩)
        · exact hnone (ho.forked.append seg)
        · exact hunended (hended.mpr ⟨h, rfl⟩)
  · exact ho
  · exact ho.elim

/-- In every run of `attach` with an effective user, the helper that was forked is
killed and reaped just when it was set up and the parent returned to its owner. -/
theorem attach_reapsHelper_iff (opts : AttachOptions) (processStatus : ProcStatus) (user : User)
    (huser : opts.effectiveUser = some user) (o : Outcome Halt AttachError Empty) (log : Log)
    (run : (attach opts processStatus).Runs (recording Possible) [] o log) :
    NoHelperLeft log ↔ Reapable log :=
  run.of_wp (attach_wp huser processStatus)

def someUser : User := ⟨1000, 1000, ascii "/home"⟩

/-- The helper is created; then the attached child, if it can be forked, reports
that it is ready and exits with `0`. -/
def helperCreated (socketpair : Except Errno Unit) (log : Log) : (c : Syscall) → c.Answer
  | .pipe => .ok (3, 4)
  | .fork => .ok (.parentOf (if helperState log = .absent then somePid
      else ⟨101, by decide⟩))
  | .read _ size => if h : 1 ≤ size then .ok ⟨[82], h⟩ else .error .invalidData
  | .openNamespace _ _ _ => .ok 1
  | .socketpair => socketpair
  | .recvmsg _ => .ok ([82], [])
  | .waitpid _ untraced => .ok (some (if untraced then .exited 0 else .signaled .kill))
  | .kill _ _ => .ok ()
  | c => c.refused

theorem possible_helperCreated (socketpair : Except Errno Unit) (log : Log) (c : Syscall) :
    Possible log ⟨c, helperCreated socketpair log c⟩ := by
  cases c with
  | kill pid sig => exact fun _ => rfl
  | waitpid pid untraced =>
      cases untraced with
      | true => trivial
      | false => exact fun _ => .inl ⟨_, rfl⟩
  | _ => trivial

/-- A child that exits leaves the helper behind. -/
theorem attach_leavesHelper :
    ∃ log, (attach ⟨none, [], some someUser⟩ plainStatus).Runs (recording Possible) []
      (.halted (.exited 0)) log ∧ ¬NoHelperLeft log := by
  have hplay : ((attach ⟨none, [], some someUser⟩ plainStatus).replay
      (helperCreated (.ok ())) 8 []).any (fun r => decide (r.1 = .halted (.exited 0)) &&
        decide (helperState r.2 = .running somePid)) = true := by
    decide +kernel
  obtain ⟨⟨o, log⟩, hrun, hend⟩ := (Option.any_eq_true _ _).mp hplay
  rw [Bool.and_eq_true, decide_eq_true_eq, decide_eq_true_eq] at hend
  obtain ⟨rfl, hstate⟩ := hend
  refine ⟨log, .of_play (fun log c => ⟨rfl, possible_helperCreated _ log c⟩) hrun, ?_⟩
  rintro (h | ⟨pid, h⟩) <;> simp [hstate] at h

theorem attach_reapsHelper_noSocket :
    ∃ o log, (attach ⟨none, [], some someUser⟩ plainStatus).Runs (recording Possible) [] o log ∧
      helperState log = .reaped somePid ∧ NoHelperLeft log ∧ Reapable log := by
  have hplay : ((attach ⟨none, [], some someUser⟩ plainStatus).replay
      (helperCreated (.error .perm)) 8 []).any (fun r =>
        decide (helperState r.2 = .reaped somePid)) = true := by
    decide +kernel
  obtain ⟨⟨o, log⟩, hrun, hend⟩ := (Option.any_eq_true _ _).mp hplay
  rw [decide_eq_true_eq] at hend
  have hrun : (attach ⟨none, [], some someUser⟩ plainStatus).Runs (recording Possible) [] o log :=
    .of_play (fun log c => ⟨rfl, possible_helperCreated _ log c⟩) hrun
  have hreaped : NoHelperLeft log := .inr ⟨_, hend⟩
  exact ⟨o, log, hrun, hend, hreaped,
    (attach_reapsHelper_iff ⟨none, [], some someUser⟩ plainStatus someUser rfl o log hrun).mp
      hreaped⟩

end Cntr.HelperCleanup
