import Cntr.NamespaceMembership

/-!
The file descriptors that are open in the command which `attach` or `exec`
executes.
-/

namespace Cntr.CommandDescriptors

open Cntr.ByteText
open Cntr.CallTree
open Cntr.SystemCalls
open Cntr.AttachChild
open Cntr.AttachParent (AttachOptions attach attachWithHelper childOptions createHelper)
open Cntr.CallsMade
open Cntr.CommandExecution
open Cntr.ContainerSetup
open Cntr.ExecCommand
open Cntr.IdmapHelperProcess
open Cntr.NamespaceFiles
open Cntr.NamespaceMembership (willing)
open Cntr.PtySession
open Cntr.WholeWrites

/-- The open descriptors that an `exec` does not close, and which of the standard
streams are terminals. -/
structure Descriptors where
  survivors : List Fd
  terminal : Fd → Bool

namespace Descriptors

def opened (state : Descriptors) (fd : Fd) : Descriptors :=
  { state with survivors := fd :: state.survivors }

def closed (state : Descriptors) (fd : Fd) : Descriptors :=
  { state with survivors := state.survivors.filter (· ≠ fd) }

/-- A descriptor is duplicated onto `target`. -/
def replaced (state : Descriptors) (target : Fd) (isTerminal : Bool) : Descriptors where
  survivors := if target ∈ state.survivors then state.survivors else target :: state.survivors
  terminal := Function.update state.terminal target isTerminal

def Interactive (state : Descriptors) : Prop :=
  state.terminal stdin = true ∧ state.terminal stdout = true

/-- What cntr starts with: the runtime has opened those of the standard streams that
were not inherited. -/
def start (inherited : List Fd) (terminal : Fd → Bool) : Descriptors :=
  ⟨[stdin, stdout, stderr] ++ inherited, terminal⟩

end Descriptors

/-- How the kernel treats the calls that open and close descriptors without the
close-on-exec flag; a new descriptor has a number that is not in use. What the
standard library opens has the flag, as have the socket pair and the copy of
`/etc/localtime`. -/
def descriptors : Kernel linux Descriptors
  | state, .isatty fd, r, state' => (fd ≤ stderr → r = state.terminal fd) ∧ state' = state
  | state, .openpt, .ok fd, state' | state, .openTerminal _, .ok fd, state'
  | state, .openTree _ _, .ok fd, state' | state, .dup _, .ok fd, state' =>
      fd ∉ state.survivors ∧ state' = state.opened fd
  | state, .dup2 _ target, .ok _, state' =>
      ∃ isTerminal, state' = state.replaced target isTerminal
  | state, .pipe, .ok (readFd, writeFd), state' =>
      readFd ∉ state.survivors ∧ writeFd ∉ state.survivors ∧ readFd ≠ writeFd ∧
        state' = (state.opened readFd).opened writeFd
  | state, .recvmsg _, .ok (_, files), state' =>
      (∀ fd ∈ files, fd ∉ state.survivors) ∧
        state' = { state with survivors := files ++ state.survivors }
  | state, .closeFd fd, _, state' => state' = state.closed fd
  | state, _, _, state' => state' = state

theorem mem_opened {state : Descriptors} {fd fd' : Fd} :
    fd' ∈ (state.opened fd).survivors ↔ fd' = fd ∨ fd' ∈ state.survivors := List.mem_cons

theorem mem_closed {state : Descriptors} {fd fd' : Fd} :
    fd' ∈ (state.closed fd).survivors ↔ fd' ∈ state.survivors ∧ fd' ≠ fd := by
  rw [Descriptors.closed, List.mem_filter, decide_eq_true_eq]

theorem mem_replaced {state : Descriptors} {target : Fd} (h : target ∈ state.survivors)
    (isTerminal : Bool) (fd : Fd) :
    fd ∈ (state.replaced target isTerminal).survivors ↔ fd ∈ state.survivors := by
  rw [Descriptors.replaced, if_pos h]

def SameSurvivors (state state' : Descriptors) : Prop :=
  ∀ fd, fd ∈ state'.survivors ↔ fd ∈ state.survivors

theorem SameSurvivors.refl (state : Descriptors) : SameSurvivors state state := fun _ => Iff.rfl

theorem SameSurvivors.trans {state state' state'' : Descriptors} (h : SameSurvivors state state')
    (h' : SameSurvivors state' state'') : SameSurvivors state state'' := fun fd =>
  (h' fd).trans (h fd)

theorem SameSurvivors.closed {state state' : Descriptors} {fd : Fd}
    (h : SameSurvivors (state.opened fd) state') (hfresh : fd ∉ state.survivors) :
    SameSurvivors state (state'.closed fd) := by
  intro fd'
  rw [mem_closed, h, mem_opened]
  constructor
  · rintro ⟨heq | hmem, hne⟩
    · exact absurd heq hne
    · exact hmem
  · intro hmem
    refine ⟨.inr hmem, ?_⟩
    rintro rfl
    exact hfresh hmem

/-- Nothing has changed that the program depends on. -/
structure Same (state state' : Descriptors) : Prop where
  survivors : SameSurvivors state state'
  terminal : state'.terminal = state.terminal

theorem Same.refl (state : Descriptors) : Same state state := ⟨.refl state, rfl⟩

theorem Same.trans {state state' state'' : Descriptors} (h : Same state state')
    (h' : Same state' state'') : Same state state'' :=
  ⟨h.survivors.trans h'.survivors, h'.terminal.trans h.terminal⟩

theorem Same.closed {state state' : Descriptors} {fd : Fd} (h : Same (state.opened fd) state')
    (hfresh : fd ∉ state.survivors) : Same state (state'.closed fd) :=
  ⟨h.survivors.closed hfresh, h.terminal⟩

/-- If a part of the program hands on to the next, then the survivors are those it
started with, and it does not execute the command. -/
def Settled {ε α : Type} (state : Descriptors) : Outcome Halt ε α → Descriptors → Prop
  | .value _, state' => Same state state'
  | .error _, _ => True
  | .halted h, _ => h ≠ .executed

/-- A part of the program that leaves no descriptor open. -/
def Restores {ε α : Type} (p : Sys ε α) : Prop :=
  ∀ state, p.wp descriptors (fun _ _ => True) (Settled state) state

section Restores

variable {ε ε' α β : Type}

theorem Settled.trans {state state' state'' : Descriptors} {o : Outcome Halt ε α}
    (h : Same state state') (h' : Settled state' o state'') : Settled state o state'' := by
  cases o with
  | value a => exact h.trans h'
  | error e => trivial
  | halted halt => exact h'

theorem Restores.bind {p : Sys ε α} {f : α → Sys ε β} (hp : Restores p)
    (hf : ∀ a, Restores (f a)) : Restores (p.bind f) := by
  intro state
  refine Program.wp_seq (hp state) fun o state' ho => ?_
  cases o with
  | value a =>
      exact Program.wp_post (hf a state') fun _ _ h => h.trans ho
  | error e => trivial
  | halted h => exact ho

theorem Restores.mapError {f : ε → ε'} {p : Sys ε α} (hp : Restores p) :
    Restores (p.mapError f) := by
  intro state
  rw [Program.wp_mapError]
  refine Program.wp_post (hp state) fun o state' ho => ?_
  cases o with
  | value a => exact ho
  | error e => trivial
  | halted h => exact ho

theorem Restores.ofExcept (f : ε' → ε) (r : Except ε' α) :
    Restores (Program.ofExcept f r : Sys ε α) := by
  intro state
  cases r with
  | error e => trivial
  | ok a => exact .refl state

/-- The calls that do not change which descriptors survive. -/
def Keeps : Syscall → Prop
  | .openpt | .openTerminal _ | .openTree _ _ | .dup _ | .dup2 _ _ => False
  | .pipe | .recvmsg _ | .closeFd _ => False
  | _ => True

theorem Keeps.eq {c : Syscall} (hc : Keeps c) {state state' : Descriptors} {r : c.Answer}
    (answer : descriptors state c r state') : state' = state := by
  cases c with
  | isatty fd => exact answer.2
  | openpt | openTerminal _ | openTree _ _ | dup _ | dup2 _ _ => exact hc.elim
  | pipe | recvmsg _ | closeFd _ => exact hc.elim
  | _ => exact answer

theorem restores_of_keeps {p : Sys ε α} (hp : p.Within Keeps fun h => h ≠ .executed) :
    Restores p := by
  intro state
  refine Program.wp_post
    (hp.wp (I := (· = state)) (fun _ _ _ _ => trivial)
      (fun _ c _ _ hI hc answer => (hc.eq answer).trans hI) rfl)
    fun o state' ho => ?_
  obtain ⟨rfl, hhalts⟩ := ho
  cases o with
  | value a => exact .refl _
  | error e => trivial
  | halted h => exact hhalts h rfl

theorem restores_call {c : Syscall} (hc : Keeps c) {f : c.Answer → Sys ε α}
    (hf : ∀ r, Restores (f r)) : Restores ((sys c).bind f) := by
  intro state
  refine ⟨trivial, fun r state' answer => ?_⟩
  obtain rfl := hc.eq answer
  exact hf r state'

theorem restores_check {c : Syscall} (hc : Keeps c) {f : ε' → ε} {g : c.Answer → Except ε' α}
    {k : α → Sys ε β} (hk : ∀ a, Restores (k a)) :
    Restores ((sys c).bind fun r => (Program.ofExcept f (g r)).bind k) :=
  restores_call hc fun r => (Restores.ofExcept f (g r)).bind hk

theorem restores_of_enters {p : Sys ε α} (hp : p.Within Enters fun h => h ≠ .executed) :
    Restores p := by
  refine restores_of_keeps (hp.mono (fun c hc => ?_) fun _ => id)
  cases c <;> trivial

theorem restores_of_still {p : Sys ε α} (hp : p.Within Still fun h => h ≠ .executed) :
    Restores p := restores_of_enters (enters_of_still hp)

theorem restores_of_adopts {p : Sys ε α} (hp : p.Within Adopts fun h => h ≠ .executed) :
    Restores p := by
  refine restores_of_keeps (hp.mono (fun c hc => ?_) fun _ => id)
  cases c <;> first | exact hc.elim | trivial

/-- What never executes the command may leave behind what it likes. -/
theorem restores_of_endless {calls : Syscall → Prop} {p : Sys ε Empty}
    (hp : p.Within calls fun h => h ≠ .executed) : Restores p := by
  intro state
  refine Program.wp_post
    (hp.wp (I := fun _ => True) (fun _ _ _ _ => trivial) (fun _ _ _ _ _ _ _ => trivial) trivial)
    fun o state' ho => ?_
  cases o with
  | value never => exact never.elim
  | error e => trivial
  | halted h => exact ho.2 h rfl

theorem Restores.iterate {body : β → Sys ε (β ⊕ α)} (hbody : ∀ b, Restores (body b)) (b : β) :
    Restores (.iterate body b .done) := by
  intro state
  refine ⟨fun _ state' => Same state state', .refl state, fun b state' h => ?_⟩
  refine Program.wp_post (hbody b state') fun o state'' ho => ?_
  rcases o with (b' | a) | e | halt
  · exact h.trans ho
  · exact h.trans ho
  · trivial
  · exact ho

end Restores

section Parts

variable {ε α : Type}

theorem idmapAt_restores (usernsFd : NsId) (mountPoint : Path) :
    Restores (idmapAt usernsFd mountPoint) := by
  have htree : ∀ tree, (idmapTree usernsFd mountPoint tree).Within Keeps fun _ => False := by
    intro tree
    refine ⟨trivial, ?_⟩
    rintro (e | _)
    · trivial
    · exact ⟨trivial, fun _ => trivial⟩
  intro state
  refine ⟨trivial, ?_⟩
  rintro (e | tree) state' answer
  · obtain rfl : state' = state := answer
    exact .refl _
  · obtain ⟨hfresh, rfl⟩ := answer
    show ((idmapTree usernsFd mountPoint tree).bind _).wp _ _ _ _
    refine Program.wp_seq
      ((htree tree).wp (I := (· = state.opened tree)) (fun _ _ _ _ => trivial)
        (fun _ c _ _ hI hc answer => (hc.eq answer).trans hI) rfl)
      fun o state' ho => ?_
    obtain ⟨rfl, hhalts⟩ := ho
    cases o with
    | value _ =>
        refine ⟨trivial, fun _ state'' answer => ?_⟩
        obtain rfl : state'' = (state.opened tree).closed tree := answer
        exact Same.closed (.refl _) hfresh
    | error e => trivial
    | halted h => exact (hhalts h rfl).elim

theorem idmapMounts_restores (usernsFd : Option NsId) (baseDir : Path) :
    Restores (idmapMounts usernsFd baseDir) := by
  have hline : ∀ usernsFd line, Restores (idmapLine usernsFd baseDir line) := by
    intro usernsFd line
    rw [idmapLine]
    split
    · cases idmappedMountPoint baseDir line with
      | none => exact fun state => .refl state
      | some mountPoint => exact idmapAt_restores usernsFd mountPoint
    · exact fun state => .refl state
  cases usernsFd with
  | none => exact fun state => .refl state
  | some usernsFd =>
      refine restores_call (c := .openFile procMountsPath .read) trivial fun r =>
        (Restores.ofExcept _ r).bind fun _ => Restores.iterate (fun _ => ?_) ()
      refine restores_call (c := .nextLine (.atPath procMountsPath .read)) trivial ?_
      rintro (e | _ | line)
      · exact fun state => .refl state
      · exact fun state => .refl state
      · exact (hline usernsFd line).bind fun _ state => .refl state

/-- The trees that were captured are open besides. -/
structure Captured (state : Descriptors) (trees : List CapturedTree) (state' : Descriptors) :
    Prop where
  fresh : ∀ captured ∈ trees, captured.tree ∉ state.survivors
  kept : ∀ fd ∈ state.survivors, fd ∈ state'.survivors
  only : ∀ fd ∈ state'.survivors, fd ∈ state.survivors ∨ fd ∈ trees.map CapturedTree.tree
  terminal : state'.terminal = state.terminal

theorem entryIsDir_wp (entry : DirEntry) (state : Descriptors) :
    (entryIsDir entry).wp descriptors (fun _ _ => True)
      (fun o state' => (∃ isDir, o = .value isDir) ∧ state' = state) state := by
  rw [entryIsDir]
  cases entry.fileType with
  | unknown =>
      refine ⟨trivial, ?_⟩
      rintro (e | isDir) state' answer
      · exact ⟨⟨false, rfl⟩, answer⟩
      · exact ⟨⟨isDir, rfl⟩, answer⟩
  | _ => exact ⟨⟨_, rfl⟩, rfl⟩

theorem captureTrees_wp (entries : List DirEntry) (state : Descriptors) :
    (captureTrees entries).wp descriptors (fun _ _ => True)
      (fun o state' => ∃ trees, o = .value trees ∧ Captured state trees state') state := by
  induction entries generalizing state with
  | nil => exact ⟨[], rfl, fun _ h => (by cases h), fun _ => id, fun _ => .inl, rfl⟩
  | cons entry entries ih =>
      rw [captureTrees, Program.bind_eq]
      refine Program.wp_seq (entryIsDir_wp entry state) fun o state' ho => ?_
      obtain ⟨⟨isDir, rfl⟩, rfl⟩ := ho
      refine ⟨trivial, ?_⟩
      rintro (e | tree) state'' answer
      · obtain rfl : state'' = state' := answer
        exact ih state''
      · obtain ⟨hfresh, rfl⟩ := answer
        show ((captureTrees entries).bind _).wp _ _ _ _
        refine Program.wp_seq (ih _) fun o state'' ho => ?_
        obtain ⟨trees, rfl, h⟩ := ho
        refine ⟨_, rfl, ?_, fun fd hfd => ?_, fun fd hfd => ?_, h.terminal⟩
        · intro captured hmem
          rcases List.mem_cons.mp hmem with rfl | hmem
          · exact hfresh
          · exact fun hmem' => h.fresh captured hmem (mem_opened.mpr (.inr hmem'))
        · exact h.kept fd (mem_opened.mpr (.inr hfd))
        · rw [List.map_cons, List.mem_cons]
          rcases h.only fd hfd with hfd | hfd
          · rcases mem_opened.mp hfd with rfl | hfd
            · exact .inr (.inl rfl)
            · exact .inl hfd
          · exact .inr (.inr hfd)

theorem Captured.close {state start : Descriptors} {captured : CapturedTree}
    {trees : List CapturedTree} (h : Captured start (captured :: trees) state) :
    Captured start trees (state.closed captured.tree) := by
  refine ⟨fun captured' hmem => h.fresh captured' (List.mem_cons_of_mem _ hmem),
    fun fd hfd => mem_closed.mpr ⟨h.kept fd hfd, ?_⟩, fun fd hfd => ?_, h.terminal⟩
  · rintro rfl
    exact h.fresh captured List.mem_cons_self hfd
  · obtain ⟨hfd, hne⟩ := mem_closed.mp hfd
    rcases h.only fd hfd with hfd | hfd
    · exact .inl hfd
    · exact .inr ((List.mem_cons.mp hfd).resolve_left hne)

theorem attachCaptured_wp (baseDir : Path) {state start : Descriptors} {captured : CapturedTree}
    {trees : List CapturedTree} (h : Captured start (captured :: trees) state) :
    (attachCaptured baseDir captured).wp descriptors (fun _ _ => True)
      (fun o => o.andThen (fun _ => Captured start trees) (Settled (α := Unit) start)) state := by
  have hpoint : (createMountPoint baseDir (pushPath baseDir captured.name)
      captured.isDir).Within Keeps fun _ => False :=
    createMountPoint_within (fun _ => trivial) (fun _ => trivial) _ _ _
  rw [attachCaptured, Program.bind_eq]
  refine Program.wp_seq
    (hpoint.wp (I := (· = state)) (fun _ _ _ _ => trivial)
      (fun _ c _ _ hI hc answer => (hc.eq answer).trans hI) rfl)
    fun o state' ho => ?_
  obtain ⟨rfl, hhalts⟩ := ho
  cases o with
  | value created =>
      cases created with
      | true =>
          refine ⟨trivial, fun _ state₁ answer => ?_⟩
          obtain rfl : state₁ = state' := answer
          refine ⟨trivial, fun _ state₂ answer => ?_⟩
          obtain rfl : state₂ = state₁.closed captured.tree := answer
          exact h.close
      | false =>
          refine ⟨trivial, fun _ state₁ answer => ?_⟩
          obtain rfl : state₁ = state'.closed captured.tree := answer
          exact h.close
  | error e => trivial
  | halted halt => exact (hhalts halt rfl).elim

theorem captureAndAttach_restores (containerPid : Pid) (ourMountNs : Namespace)
    (baseDir : Path) :
    Restores (captureAndAttachContainerTrees containerPid ourMountNs baseDir) := by
  have happly : ∀ ns : Namespace, Restores (ns.apply.mapError AttachError.namespaceFailed) :=
    fun ns => (restores_of_enters (apply_enters ns)).mapError
  have hopen : Restores ((openKind .mount containerPid).mapError AttachError.namespaceFailed) :=
    (restores_of_still (openKind_still _ _)).mapError
  have htrees : ∀ entries, Restores ((captureTrees entries).bind fun trees =>
      (ourMountNs.apply.mapError AttachError.namespaceFailed).bind fun _ =>
        .forEach (attachCaptured baseDir) trees) := by
    intro entries start
    refine Program.wp_seq (captureTrees_wp entries start) fun o state ho => ?_
    obtain ⟨trees, rfl, h⟩ := ho
    refine ⟨trivial, fun r state' answer => ?_⟩
    obtain rfl : state' = state := answer
    cases r with
    | error e => trivial
    | ok _ =>
        refine Program.wp_forEach (Captured start) (fun captured trees state h =>
          attachCaptured_wp baseDir h) (fun state h => ?_) h
        refine ⟨fun fd => ⟨fun hfd => ?_, h.kept fd⟩, h.terminal⟩
        rcases h.only fd hfd with hfd | hfd
        · exact hfd
        · cases hfd
  refine hopen.bind fun containerMountNs => (happly containerMountNs).bind fun _ => ?_
  refine restores_call (c := .readContainerRoot) trivial fun dir => ?_
  exact (Restores.ofExcept _ dir).bind fun dir => htrees (rootEntries dir)

theorem assembleHierarchy_restores (options : ChildOptions) (baseDir : Path) :
    Restores (assembleHierarchy options baseDir) := by
  refine restores_check (c := .createDirAll baseDir) (g := id) trivial fun _ => ?_
  refine restores_check (c := .openFile _ .read) (g := id) trivial fun _ => ?_
  refine restores_check (c := .unshareMount) (g := id) trivial fun _ => ?_
  refine restores_check (c := .makeMountsPrivate) (g := id) trivial fun _ => ?_
  refine (idmapMounts_restores _ _).bind fun _ => ?_
  refine restores_call (c := .getpid) trivial fun ownPid => ?_
  refine (restores_of_still (openKind_still _ _)).mapError.bind
    fun ourMountNs => ?_
  refine restores_check (c := .mountTmpfs baseDir) (g := id) trivial fun _ => ?_
  refine (restores_of_still (setupContainerTimezone_still _)).bind
    fun localtimeCopy => ?_
  exact (captureAndAttach_restores _ _ _).bind fun _ state => .refl state

/-- Both ends of the pipe are closed by the time the helper is known to be ready. -/
theorem newHelper_restores (mapping : IdMapping) : Restores (IdmapHelper.new mapping) := by
  intro state
  refine ⟨trivial, ?_⟩
  rintro (e | ⟨readFd, writeFd⟩) state' answer
  · trivial
  obtain ⟨hread, hwrite, hne, rfl⟩ := answer
  refine ⟨trivial, ?_⟩
  rintro (e | _ | child) state₁ answer
  · trivial
  · show ((helperProcess mapping readFd writeFd).bind _).wp _ _ _ _
    have hendless : (helperProcess mapping readFd writeFd).Within HelperCall
        fun h => h ≠ .executed := helperProcess_within (fun h => by cases h) mapping readFd writeFd
    refine Program.wp_seq (restores_of_endless hendless state₁) fun o state₂ ho => ?_
    cases o with
    | value never => exact nomatch never
    | error e => trivial
    | halted h => exact ho
  · obtain rfl : state₁ = (state.opened readFd).opened writeFd := answer
    have hfresh : writeFd ∉ (state.opened readFd).survivors := by
      rw [mem_opened]
      rintro (heq | hmem)
      · exact hne heq.symm
      · exact hwrite hmem
    refine ⟨trivial, fun _ state₂ answer => ?_⟩
    obtain rfl : state₂ = ((state.opened readFd).opened writeFd).closed writeFd := answer
    have hsame := Same.closed (.refl _) hfresh
    refine ⟨trivial, ?_⟩
    rintro (e | buf) state₃ answer
    · trivial
    obtain rfl : state₃ = _ := answer
    simp only [Program.ofExcept, Program.bind_eq, Program.done_bind]
    split
    · trivial
    · refine ⟨trivial, fun _ state₄ answer => ?_⟩
      obtain rfl : state₄ = _ := answer
      have hrestored := hsame.closed hread
      refine ⟨trivial, ?_⟩
      rintro (e | ns) state₅ answer
      · trivial
      · obtain rfl : state₅ = _ := answer
        exact hrestored

theorem createHelper_restores (user : Option AttachParent.User) :
    Restores (createHelper user) := by
  cases user with
  | none => exact fun state => .refl state
  | some user =>
      refine restores_call (c := .getuid) trivial fun uid => ?_
      refine restores_call (c := .getgid) trivial fun gid => ?_
      exact (newHelper_restores _).mapError.bind fun _ state => .refl state

end Parts

def StdioOpen (state : Descriptors) : Prop := ∀ fd ≤ stderr, fd ∈ state.survivors

section Pty

variable {ε : Type} {state : Descriptors}

theorem stdioIsTty_wp (state : Descriptors) :
    (stdioIsTty (ε := ε)).wp descriptors (fun _ _ => True)
      (fun o state' => (∃ isTty : Bool, o = .value isTty ∧ (isTty = true ↔ state.Interactive)) ∧
        state' = state) state := by
  refine ⟨trivial, fun r state' answer => ?_⟩
  obtain ⟨hr, rfl⟩ := answer
  have hr : r = state'.terminal stdin := hr (by decide)
  cases r with
  | false => exact ⟨⟨false, rfl, by simp [Descriptors.Interactive, ← hr]⟩, rfl⟩
  | true =>
      refine ⟨trivial, fun r state₂ answer => ?_⟩
      obtain ⟨hr', rfl⟩ := answer
      have hr' : r = state₂.terminal stdout := hr' (by decide)
      exact ⟨⟨r, rfl, by simp [Descriptors.Interactive, ← hr, ← hr']⟩, rfl⟩

theorem openPtm_wp (state : Descriptors) :
    openPtm.wp descriptors (fun _ _ => True)
      (fun o state' => (∃ ptyMaster, o = .value ptyMaster ∧ ptyMaster ∉ state.survivors ∧
        state' = state.opened ptyMaster) ∨ ∃ e, o = .error e) state := by
  refine ⟨trivial, ?_⟩
  rintro (e | ptyMaster) state' answer
  · exact .inr ⟨_, rfl⟩
  obtain ⟨hfresh, rfl⟩ := answer
  refine ⟨trivial, ?_⟩
  rintro (e | _) state' answer
  · exact .inr ⟨_, rfl⟩
  obtain rfl : state' = state.opened ptyMaster := answer
  refine ⟨trivial, ?_⟩
  rintro (e | _) state' answer
  · exact .inr ⟨_, rfl⟩
  obtain rfl : state' = state.opened ptyMaster := answer
  exact .inl ⟨ptyMaster, rfl, hfresh, rfl⟩

theorem dup2_wp {ptySlave target : Fd} {what : Bytes} {start : Descriptors}
    (htarget : target ∈ start.survivors) (h : SameSurvivors start state) {k : Sys PtyError Unit}
    {Q : Outcome Halt PtyError Unit → Descriptors → Prop} (hfails : ∀ e state, Q (.error e) state)
    (hk : ∀ state, SameSurvivors start state → k.wp descriptors (fun _ _ => True) Q state) :
    ((sys (.dup2 ptySlave target)).bind fun r =>
      (Program.ofExcept (PtyError.dup2 what) r).bind fun _ => k).wp descriptors
        (fun _ _ => True) Q state := by
  refine ⟨trivial, ?_⟩
  rintro (e | _) state' answer
  · exact hfails _ _
  · obtain ⟨isTerminal, rfl⟩ := answer
    exact hk _ fun fd => (mem_replaced ((h target).mpr htarget) isTerminal fd).trans (h fd)

/-- The slave takes the place of the standard streams, which are open anyway. -/
theorem attachPts_wp (ptyMaster : Fd) (hstdio : StdioOpen state) :
    (attachPts ptyMaster).wp descriptors (fun _ _ => True)
      (fun o state' => (o = .value () ∧ SameSurvivors state state') ∨ ∃ e, o = .error e)
      state := by
  refine ⟨trivial, ?_⟩
  rintro (e | ptsName) state' answer
  · exact .inr ⟨_, rfl⟩
  obtain rfl : state' = state := answer
  simp only [Program.ofExcept, Program.bind_eq, Program.done_bind]
  split
  · refine ⟨trivial, ?_⟩
    rintro (e | _) state₁ answer
    · exact .inr ⟨_, rfl⟩
    obtain rfl : state₁ = state' := answer
    refine ⟨trivial, ?_⟩
    rintro (e | ptySlave) state₂ answer
    · exact .inr ⟨_, rfl⟩
    obtain ⟨hfresh, rfl⟩ := answer
    refine ⟨trivial, fun _ state₃ answer => ?_⟩
    obtain rfl : state₃ = state₁.opened ptySlave := answer
    have hopen : ∀ target ≤ stderr, target ∈ (state₁.opened ptySlave).survivors :=
      fun target htarget => mem_opened.mpr (.inr (hstdio target htarget))
    refine dup2_wp (hopen stdin (by decide)) (.refl _) (fun e _ => .inr ⟨e, rfl⟩)
      fun state₄ h₄ => ?_
    refine dup2_wp (hopen stdout (by decide)) h₄ (fun e _ => .inr ⟨e, rfl⟩) fun state₅ h₅ => ?_
    refine dup2_wp (hopen stderr (by decide)) h₅ (fun e _ => .inr ⟨e, rfl⟩) fun state₆ h₆ => ?_
    refine ⟨trivial, fun _ state₇ answer => .inl ⟨rfl, ?_⟩⟩
    obtain rfl : state₇ = state₆.closed ptySlave := answer
    exact h₆.closed hfresh
  · exact .inr ⟨_, rfl⟩

/-- The PTY master is left open, if there is a PTY. -/
def Allocated {ε α : Type} (state : Descriptors) : Outcome Halt ε α → Descriptors → Prop
  | .value _, state' => (SameSurvivors state state' ↔ ¬state.Interactive) ∧ StdioOpen state'
  | .error _, _ => True
  | .halted h, _ => h ≠ .executed

theorem allocated_of_opened {α : Type} {ptyMaster : Fd} {state' : Descriptors}
    (hstdio : StdioOpen state) (hinteractive : state.Interactive)
    (hfresh : ptyMaster ∉ state.survivors) (h : SameSurvivors (state.opened ptyMaster) state')
    (a : α) : Allocated state (.value a : Outcome Halt ε α) state' := by
  refine ⟨⟨fun hsame => ?_, fun hnot => absurd hinteractive hnot⟩, fun fd hfd => ?_⟩
  · have hmem := (h ptyMaster).mpr (mem_opened.mpr (.inl rfl))
    exact absurd ((hsame ptyMaster).mp hmem) hfresh
  · exact (h fd).mpr (mem_opened.mpr (.inr (hstdio fd hfd)))

theorem allocated_none {α : Type} (hstdio : StdioOpen state) (hnot : ¬state.Interactive)
    (a : α) : Allocated state (.value a : Outcome Halt ε α) state :=
  ⟨⟨fun _ => hnot, fun _ => .refl state⟩, hstdio⟩

theorem stdioOpen_opened (hstdio : StdioOpen state) (fd : Fd) : StdioOpen (state.opened fd) :=
  fun fd' hfd' => mem_opened.mpr (.inr (hstdio fd' hfd'))

/-- A PTY is opened for an interactive session, and `k` goes on with its master. -/
theorem openForTty_wp {f : PtyError → ε} {k : Fd → Sys ε (Option Fd)} (hstdio : StdioOpen state)
    (hk : ∀ ptyMaster, state.Interactive → ptyMaster ∉ state.survivors →
      (k ptyMaster).wp descriptors (fun _ _ => True) (Allocated state) (state.opened ptyMaster)) :
    ((do
      if ← stdioIsTty then
        let ptyMaster ← openPtm.mapError f
        k ptyMaster
      else return none) : Sys ε (Option Fd)).wp descriptors (fun _ _ => True) (Allocated state)
        state := by
  refine Program.wp_seq (stdioIsTty_wp state) fun o state' ho => ?_
  obtain ⟨⟨isTty, rfl, hinteractive⟩, rfl⟩ := ho
  cases isTty with
  | false =>
      have hnot : ¬state'.Interactive := fun h => nomatch hinteractive.mpr h
      exact allocated_none (ε := ε) hstdio hnot (none : Option Fd)
  | true =>
      rw [Outcome.andThen_value, if_pos rfl, Program.bind_eq, Program.wp_bind,
        Program.wp_mapError]
      refine Program.wp_post (openPtm_wp state') fun o state₁ ho => ?_
      rcases ho with ⟨ptyMaster, rfl, hfresh, rfl⟩ | ⟨e, rfl⟩
      · exact hk ptyMaster (hinteractive.mp rfl) hfresh
      · trivial

theorem setupPty_wp (hstdio : StdioOpen state) :
    setupPty.wp descriptors (fun _ _ => True) (Allocated state) state := by
  refine openForTty_wp hstdio fun ptyMaster hinteractive hfresh => ?_
  rw [Program.bind_eq, Program.wp_bind, Program.wp_mapError]
  refine Program.wp_post (attachPts_wp ptyMaster (stdioOpen_opened hstdio ptyMaster))
    fun o state₁ ho => ?_
  rcases ho with ⟨rfl, hsame⟩ | ⟨e, rfl⟩
  · exact allocated_of_opened (ε := AttachError) hstdio hinteractive hfresh hsame (some ptyMaster)
  · trivial

theorem createPty_wp (hstdio : StdioOpen state) :
    createPty.wp descriptors (fun _ _ => True) (Allocated state) state :=
  openForTty_wp hstdio fun ptyMaster hinteractive hfresh =>
    allocated_of_opened (ε := ExecError) hstdio hinteractive hfresh (.refl _) (some ptyMaster)

theorem attachPtySlave_wp (ptyMaster : Option Fd) (hstdio : StdioOpen state) :
    (attachPtySlave ptyMaster).wp descriptors (fun _ _ => True)
      (fun o state' => (o = .value () ∧ SameSurvivors state state') ∨ ∃ e, o = .error e)
      state := by
  cases ptyMaster with
  | none => exact .inl ⟨rfl, .refl state⟩
  | some ptyMaster =>
      rw [attachPtySlave, Program.wp_mapError]
      refine Program.wp_post (attachPts_wp ptyMaster hstdio) fun o state' ho => ?_
      rcases ho with ⟨rfl, hsame⟩ | ⟨e, rfl⟩
      · exact .inl ⟨rfl, hsame⟩
      · exact .inr ⟨_, rfl⟩

end Pty

/-- If the command is executed, then in a state that satisfies `P`. -/
abbrev AtExecution {ε α : Type} (P : Descriptors → Prop) :
    Outcome Halt ε α → Descriptors → Prop :=
  OnHalt .executed P

/-- The command gets what cntr started with if and only if there is no PTY. -/
def Verdict (start state : Descriptors) : Prop :=
  SameSurvivors start state ↔ ¬start.Interactive

theorem Verdict.of_same {start state state' : Descriptors} (h : Same start state)
    (hverdict : Verdict state state') : Verdict start state' := by
  have hinteractive : state.Interactive ↔ start.Interactive := by
    rw [Descriptors.Interactive, h.terminal, Descriptors.Interactive]
  rw [Verdict, ← hinteractive, ← show SameSurvivors state state' ↔ _ from hverdict]
  constructor
  · exact fun hsame fd => (hsame fd).trans (h.survivors fd).symm
  · exact fun hsame => h.survivors.trans hsame

section AtExecution

variable {ε ε' α β : Type} {P : Descriptors → Prop} {start state : Descriptors}

theorem Restores.atExecution_bind {p : Sys ε α} {f : α → Sys ε β} (hp : Restores p)
    (hf : ∀ a state', Same state state' →
      (f a).wp descriptors (fun _ _ => True) (AtExecution P) state') :
    (p.bind f).wp descriptors (fun _ _ => True) (AtExecution P) state :=
  Program.wp_onHalt_bind (hp state) (fun _ hne => hne rfl) hf

theorem execute_atExecution (cmd : Cmd) (environment : Environment) (h : P state) :
    (execute cmd environment).wp descriptors (fun _ _ => True) (AtExecution P) state := by
  refine ⟨trivial, ?_⟩
  rintro (e | _) state' answer
  · exact .of_ne (by simp)
  · obtain rfl : state' = state := answer
    exact fun _ => h

theorem allocated_bind {p : Sys ε α} {f : α → Sys ε β}
    (hp : p.wp descriptors (fun _ _ => True) (Allocated start) start)
    (hf : ∀ a state, StdioOpen state →
      (f a).wp descriptors (fun _ _ => True) (AtExecution (SameSurvivors state)) state) :
    (p.bind f).wp descriptors (fun _ _ => True) (AtExecution (Verdict start)) start := by
  refine Program.wp_onHalt_bind hp (fun _ hne => hne rfl) fun a state ho => ?_
  refine Program.wp_post (hf a state ho.2) fun o state' hends heq => ?_
  rw [Verdict, ← ho.1]
  constructor
  · exact fun hsame fd => (hends heq fd).symm.trans (hsame fd)
  · exact fun hsame => hsame.trans (hends heq)

theorem Restores.verdict_bind {p : Sys ε α} {f : α → Sys ε β} (hp : Restores p)
    (hstdio : StdioOpen start)
    (hf : ∀ a state, StdioOpen state →
      (f a).wp descriptors (fun _ _ => True) (AtExecution (Verdict state)) state) :
    (p.bind f).wp descriptors (fun _ _ => True) (AtExecution (Verdict start)) start := by
  refine hp.atExecution_bind fun a state hsame => ?_
  refine Program.wp_post (hf a state fun fd hfd => (hsame.survivors fd).mpr (hstdio fd hfd))
    fun o state' ho heq => (ho heq).of_same hsame

end AtExecution

section Children

variable {start : Descriptors}

theorem panicked_unexecuted : Halt.panicked ≠ .executed := by simp

theorem enterAndExecute_wp (options : ChildOptions) (baseDir : Path) (cmd : Cmd)
    (otherNamespaces : List Namespace) (hstdio : StdioOpen start) :
    (enterAndExecute options baseDir cmd otherNamespaces).wp descriptors (fun _ _ => True)
      (AtExecution (Verdict start)) start := by
  have hsend : ∀ ptyMaster, Restores (sendReady ptyMaster) := fun ptyMaster =>
    (restores_call (c := .sendmsg _ _) trivial fun r => Restores.ofExcept _ r).mapError
  refine (restores_of_enters (applyAll_enters otherNamespaces)).mapError.verdict_bind hstdio
    fun _ state hstdio => allocated_bind (setupPty_wp hstdio) fun ptyMaster state _ => ?_
  refine (restores_of_enters (applySecurityContext_enters panicked_unexecuted _
    _)).mapError.atExecution_bind fun _ state₁ h₁ => ?_
  refine (hsend ptyMaster).atExecution_bind fun _ state₂ h₂ => ?_
  refine ⟨trivial, fun _ state₃ answer => ?_⟩
  obtain rfl : state₃ = state₂ := answer
  refine (restores_of_adopts (inheritProfile_adopts _)).atExecution_bind
    fun _ state₄ h₄ => ?_
  refine Program.wp_onHalt_mapError ⟨trivial, fun ownPath state₅ answer => ?_⟩
  obtain rfl : state₅ = state₄ := answer
  exact execute_atExecution cmd _ ((h₁.trans h₂).trans h₄).survivors

theorem attachRun_wp (options : ChildOptions) (hstdio : StdioOpen start) :
    (AttachChild.run options).wp descriptors (fun _ _ => True)
      (AtExecution (Verdict start)) start := by
  refine ⟨trivial, fun pid state answer => ?_⟩
  obtain rfl : state = start := answer
  refine (restores_of_still (moveTo_still _ _)).mapError.verdict_bind hstdio
    fun _ state hstdio => ?_
  refine (restores_of_still (cmdNew_still _ _ _ _)).mapError.verdict_bind hstdio
    fun cmd state hstdio => ?_
  refine (restores_of_still supportedNamespaces_still).mapError.verdict_bind hstdio
    fun supported state hstdio => ?_
  split
  · exact .of_ne (by simp)
  · refine (restores_of_still (attachOpenOthers_still _ _ _ _)).verdict_bind hstdio
      fun otherNamespaces state hstdio => ?_
    refine (restores_of_still getBaseDir_still).verdict_bind hstdio fun baseDir state hstdio => ?_
    refine (assembleHierarchy_restores options baseDir).verdict_bind hstdio
      fun localtimeCopy state hstdio => ?_
    exact enterAndExecute_wp options baseDir _ otherNamespaces hstdio

theorem execChild_wp (processStatus : ProcStatus) (exe : Option Bytes) (args : List Bytes)
    (ptyMaster : Option Fd) (hstdio : StdioOpen start) :
    (execChild processStatus exe args ptyMaster).wp descriptors (fun _ _ => True)
      (AtExecution (SameSurvivors start)) start := by
  rw [execChild, Program.bind_eq]
  refine Program.wp_seq (attachPtySlave_wp ptyMaster hstdio) fun o state ho => ?_
  rcases ho with ⟨rfl, hslave⟩ | ⟨e, rfl⟩
  · refine (restores_of_still (cmdNew_still _ _ _ _)).mapError.atExecution_bind
      fun cmd state₁ h₁ => ?_
    refine (restores_of_enters (enterContainer_enters panicked_unexecuted
      processStatus)).mapError.atExecution_bind fun _ state₂ h₂ => Program.wp_onHalt_mapError ?_
    refine (restores_of_still (containerEnvironment_still cmd)).atExecution_bind
      fun environment state₃ h₃ => ?_
    refine (restores_of_adopts (preExec_adopts _ _)).mapError.atExecution_bind
      fun _ state₄ h₄ => ?_
    exact execute_atExecution cmd environment
      (hslave.trans (((h₁.trans h₂).trans h₃).trans h₄).survivors)
  · exact .of_ne (by simp)

end Children

section Commands

variable {start : Descriptors}

theorem exec_wp (opts : ExecOptions) (processStatus : ProcStatus) (hstdio : StdioOpen start) :
    (exec opts processStatus).wp descriptors (fun _ _ => True)
      (AtExecution (Verdict start)) start := by
  refine allocated_bind (createPty_wp hstdio) fun ptyMaster state hstdio => ?_
  refine ⟨trivial, ?_⟩
  rintro (e | _ | childPid) state' answer
  · exact .of_ne (by simp)
  · obtain rfl : state' = state := answer
    exact Program.wp_onHalt_attempt (execChild_wp processStatus _ _ ptyMaster hstdio)
      fun _ _ heq => nomatch heq
  · exact (execParentBranch_supervises ptyMaster childPid).wp_onHalt

theorem attachWithHelper_wp (options : ChildOptions) (hstdio : StdioOpen start) :
    (attachWithHelper options).wp descriptors (fun _ _ => True)
      (AtExecution (Verdict start)) start := by
  have hpair : Restores (ReadySocket.socketPair.mapError AttachError.ipc) :=
    (restores_call (c := .socketpair) trivial fun r => Restores.ofExcept _ r).mapError
  refine hpair.verdict_bind hstdio fun _ state hstdio => ⟨trivial, ?_⟩
  rintro (e | _ | childPid) state' answer
  · exact .of_ne (by simp)
  · obtain rfl : state' = state := answer
    refine ⟨trivial, fun _ state'' answer => ?_⟩
    obtain rfl : state'' = state' := answer
    exact Program.wp_onHalt_attempt (attachRun_wp options hstdio) fun _ _ heq => nomatch heq
  · exact (attachParentBranch_supervises childPid).wp_onHalt

theorem attach_wp (opts : AttachOptions) (processStatus : ProcStatus)
    (hstdio : StdioOpen start) :
    (attach opts processStatus).wp descriptors (fun _ _ => True)
      (AtExecution (Verdict start)) start := by
  refine (createHelper_restores opts.effectiveUser).verdict_bind hstdio
    fun idmapHelper state hstdio => ?_
  have hdrop : ∀ res : Except AttachError Empty, ((AttachParent.dropHelper idmapHelper).bind
      fun _ => Program.ofExcept id res).Within Still fun h => h ≠ .executed := fun res =>
    (dropHelper_still idmapHelper).bind fun _ => (Program.within_ofExcept _ res).mpr trivial
  exact Program.wp_onHalt_attempt (attachWithHelper_wp _ hstdio) fun res _ =>
    (hdrop res).wp_onHalt

end Commands

/-- The command has the standard streams and what cntr inherited. -/
def InheritsOnly (inherited : List Fd) (state : Descriptors) : Prop :=
  ∀ fd, fd ∈ state.survivors ↔ fd ≤ stderr ∨ fd ∈ inherited

def Executes {ε : Type} (p : Sys ε Empty) (inherited : List Fd) (terminal : Fd → Bool)
    (state : Descriptors) : Prop :=
  p.Runs descriptors (.start inherited terminal) (.halted .executed) state

theorem mem_start {inherited : List Fd} {terminal : Fd → Bool} {fd : Fd} :
    fd ∈ (Descriptors.start inherited terminal).survivors ↔ fd ≤ stderr ∨ fd ∈ inherited := by
  have hle : ∀ n : Nat, n = 0 ∨ n = 1 ∨ n = 2 ↔ n ≤ 2 := by
    intro n
    omega
  rw [Descriptors.start, List.mem_append]
  refine or_congr_left ?_
  simp only [List.mem_cons, List.not_mem_nil, or_false]
  exact hle fd

theorem stdioOpen_start (inherited : List Fd) (terminal : Fd → Bool) :
    StdioOpen (.start inherited terminal) := fun _ hfd => mem_start.mpr (.inl hfd)

theorem Executes.inheritsOnly_iff {ε : Type} {p : Sys ε Empty} {inherited : List Fd}
    {terminal : Fd → Bool} {state : Descriptors} (h : Executes p inherited terminal state)
    (hp : p.wp descriptors (fun _ _ => True) (AtExecution (Verdict (.start inherited terminal)))
      (.start inherited terminal)) :
    InheritsOnly inherited state ↔ ¬(terminal stdin = true ∧ terminal stdout = true) := by
  have hverdict : SameSurvivors _ state ↔ ¬(Descriptors.start inherited terminal).Interactive :=
    h.of_wp hp rfl
  refine Iff.trans ?_ hverdict
  constructor
  · exact fun honly fd => (honly fd).trans mem_start.symm
  · exact fun hsame fd => (hsame fd).trans mem_start

theorem command_inheritsOnly_iff (inherited : List Fd) (terminal : Fd → Bool)
    (processStatus : ProcStatus) (attachOpts : AttachOptions) (execOpts : ExecOptions)
    {state : Descriptors}
    (h : Executes (attach attachOpts processStatus) inherited terminal state ∨
      Executes (exec execOpts processStatus) inherited terminal state) :
    InheritsOnly inherited state ↔ ¬(terminal stdin = true ∧ terminal stdout = true) := by
  rcases h with h | h
  · exact h.inheritsOnly_iff (attach_wp _ _ (stdioOpen_start inherited terminal))
  · exact h.inheritsOnly_iff (exec_wp _ _ (stdioOpen_start inherited terminal))

/-- The answers of a system on which whatever is needed to execute the command
succeeds, and what they make of the descriptors. -/
def granting (state : Descriptors) : (c : Syscall) → c.Answer × Descriptors
  | .isatty fd => (state.terminal fd, state)
  | .openpt | .openTerminal _ | .openTree _ _ | .dup _ =>
      (.ok (unusedFd state.survivors), state.opened (unusedFd state.survivors))
  | .dup2 _ target => (.ok (), state.replaced target true)
  | .closeFd fd => ((), state.closed fd)
  | .ptsname _ => (.ok (ascii "/dev/pts/0"), state)
  | .grantpt _ | .unlockpt _ | .setsid | .tiocsctty _ => (.ok (), state)
  | c => (willing [] c, state)

theorem descriptors_granting (state : Descriptors) (c : Syscall) :
    descriptors state c (granting state c).1 (granting state c).2 := by
  cases c with
  | isatty fd => exact ⟨fun _ => rfl, rfl⟩
  | openpt | openTerminal _ | openTree _ _ | dup _ => exact ⟨unusedFd_notMem _, rfl⟩
  | dup2 _ target => exact ⟨true, rfl⟩
  | _ => exact rfl

theorem executes_granting {ε : Type} (p : Sys ε Empty) (inherited : List Fd)
    (terminal : Fd → Bool) (test : Descriptors → Bool)
    (hplay : (p.play granting 8 (.start inherited terminal)).any (fun r =>
      (match r.1 with | .halted .executed => true | _ => false) && test r.2) = true) :
    ∃ state, Executes p inherited terminal state ∧ test state = true := by
  obtain ⟨⟨o, state⟩, hrun, hend⟩ := (Option.any_eq_true _ _).mp hplay
  rw [Bool.and_eq_true] at hend
  obtain ⟨hexecuted, htest⟩ := hend
  refine ⟨state, ?_, htest⟩
  match o, hexecuted with
  | .halted .executed, _ => exact .of_play descriptors_granting hrun

theorem command_inheritsOnly_redirected :
    ∃ state, Executes (attach ⟨none, [], none⟩ plainStatus) [7] (fun fd => decide (fd = stdin))
      state ∧ InheritsOnly [7] state := by
  obtain ⟨state, h, -⟩ := executes_granting (attach ⟨none, [], none⟩ plainStatus) [7]
    (fun fd => decide (fd = stdin)) (fun _ => true) (by decide +kernel)
  exact ⟨state, h, (command_inheritsOnly_iff [7] _ plainStatus ⟨none, [], none⟩ ⟨none, []⟩
    (.inl h)).mpr (by decide)⟩

/-- On a terminal the command gets the master of its own PTY. -/
theorem command_inheritsMaster :
    ∃ state, Executes (exec ⟨none, []⟩ plainStatus) [] (fun _ => true) state ∧
      ¬InheritsOnly [] state := by
  obtain ⟨state, h, hmaster⟩ := executes_granting (exec ⟨none, []⟩ plainStatus) []
    (fun _ => true) (fun state => decide (unusedFd [stdin, stdout, stderr] ∈ state.survivors))
    (by decide +kernel)
  refine ⟨state, h, fun honly => ?_⟩
  exact absurd ((honly _).mp (of_decide_eq_true hmaster)) (by decide)

end Cntr.CommandDescriptors
