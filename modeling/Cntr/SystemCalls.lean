import Cntr.ByteText
import Cntr.CallTreeFrames
import Mathlib.Algebra.GroupWithZero.Nat
import Mathlib.Data.Nat.Init

/-!
The operating system as the program sees it: one call for each system call, or
call of the standard library, whose result does not depend on the program
alone. Diagnostics (`warn!`, `debug!`, `eprintln!`) are left out.
-/

namespace Cntr.SystemCalls

open Cntr.ByteText
open Cntr.CallTree

structure Errno where
  raw : Nat
  deriving DecidableEq

namespace Errno

def noent : Errno := ⟨2⟩

def intr : Errno := ⟨4⟩

def again : Errno := ⟨11⟩

def nosys : Errno := ⟨38⟩

end Errno

/-- `std::io::Error`: an error number, or one of the errors that the standard
library makes itself. -/
inductive IoError where
  | os (e : Errno)
  | invalidData
  | writeZero
  deriving DecidableEq

def IoError.notFound : IoError := .os Errno.noent

def IoError.interrupted : IoError := .os Errno.intr

def IoError.wouldBlock : IoError := .os Errno.again

structure Pid where
  raw : Nat
  pos : 0 < raw
  deriving DecidableEq

def Pid.text (pid : Pid) : Bytes := decimal pid.raw

/-- The process of some container. -/
def someTarget : Pid := ⟨42, by decide⟩

def somePid : Pid := ⟨100, by decide⟩

structure Signal where
  raw : Nat
  pos : 0 < raw
  le_max : raw ≤ 64
  deriving DecidableEq

def Signal.kill : Signal := ⟨9, by decide, by decide⟩

def Signal.cont : Signal := ⟨18, by decide, by decide⟩

def Signal.stop : Signal := ⟨19, by decide, by decide⟩

/-- `Signal::from_named_raw`: the real-time signals have no name. -/
def Signal.fromNamedRaw (sig : Nat) : Option Signal :=
  if h : 0 < sig ∧ sig ≤ 31 then some ⟨sig, h.1, by omega⟩ else none

/-- How a process ends: by `exit`, by a signal, or by a panic, which unwinds
and exits with a non-zero code; or it lives on as the program it executes. -/
inductive Halt where
  | exited (code : Nat)
  | signaled (sig : Signal)
  | panicked
  | executed
  deriving DecidableEq

inductive WaitStatus where
  | exited (code : UInt8)
  | signaled (sig : Signal)
  | stopped (sig : Signal)
  | continued
  deriving DecidableEq

namespace WaitStatus

def isStopped : WaitStatus → Bool
  | .stopped _ => true
  | _ => false

def terminatingSignal : WaitStatus → Option Nat
  | .signaled sig => some sig.raw
  | _ => none

def exitStatus : WaitStatus → Option Nat
  | .exited code => some code.toNat
  | _ => none

end WaitStatus

inductive Kind where
  | mount
  | uts
  | user
  | pid
  | net
  | cgroup
  | ipc
  deriving DecidableEq

def Kind.name : Kind → Bytes
  | .mount => ascii "mnt"
  | .uts => ascii "uts"
  | .user => ascii "user"
  | .pid => ascii "pid"
  | .net => ascii "net"
  | .cgroup => ascii "cgroup"
  | .ipc => ascii "ipc"

/-- The inode number by which the kernel tells namespaces of a kind apart. An
open namespace file is known by it, and the link text shows it. -/
abbrev NsId := Nat

abbrev Fd := Nat

/-- A number that is not in the list. -/
def unusedFd (fds : List Fd) : Fd := fds.sum + 1

theorem unusedFd_notMem (fds : List Fd) : unusedFd fds ∉ fds := by
  have hle : ∀ fd ∈ fds, fd ≤ fds.sum := by
    induction fds with
    | nil => exact fun fd h => by cases h
    | cons first fds ih =>
        intro fd hfd
        rw [List.sum_cons]
        rcases List.mem_cons.mp hfd with rfl | hfd
        · exact Nat.le_add_right _ _
        · exact Nat.le_trans (ih fd hfd) (Nat.le_add_left _ _)
  exact fun hmem => Nat.not_succ_le_self _ (hle _ hmem)

def stdin : Fd := 0

def stdout : Fd := 1

def stderr : Fd := 2

inductive OpenMode where
  | read
  | write
  | append
  | create
  deriving DecidableEq

/-- The files the program reads and writes. A `FilePair` refers to its two
files by its position in the slice, so that what passes through one pair can be
told from what passes through another. -/
inductive File where
  | atPath (path : Path) (mode : OpenMode)
  | ofPair (position : Nat) (fd : Fd)
  | syncPipe (fd : Fd)
  | localtime
  deriving DecidableEq

inductive PollFlags where
  | pollIn
  | pollOut
  deriving DecidableEq

structure PollFd where
  file : File
  events : PollFlags
  deriving DecidableEq

structure Winsize where
  wsRow : UInt16
  wsCol : UInt16
  wsXpixel : UInt16
  wsYpixel : UInt16
  deriving DecidableEq

structure Timespec where
  tvSec : Nat
  tvNsec : Nat
  deriving DecidableEq

structure Termios where
  inputModes : UInt32
  outputModes : UInt32
  localModes : UInt32
  controlModes : UInt32
  vmin : UInt8
  vtime : UInt8

inductive FileType where
  | directory
  | symlink
  | regularFile
  | other
  | unknown
  deriving DecidableEq

structure DirEntry where
  fileName : Bytes
  fileType : FileType

/-- The owner of a file. -/
structure Metadata where
  uid : UInt32
  gid : UInt32
  deriving DecidableEq

inductive TreeBase where
  | cwd
  | containerRoot
  deriving DecidableEq

/-- The two ends of the socket pair of `attach`. -/
inductive SocketEnd where
  | parent
  | child
  deriving DecidableEq

inductive Fork where
  | child
  | parentOf (pid : Pid)

inductive Raised where
  | died
  | survived

/-- `HashMap<OsString, OsString>`, from the name of a variable to its value. -/
abbrev Environment := Bytes → Option Bytes

inductive Syscall where
  | getenv (key : Bytes)
  | geteuidIsRoot
  | getuid
  | getgid
  | getpid
  | openFile (path : Path) (mode : OpenMode)
  | openLines (path : Path)
  | readToString (path : Path)
  | readLink (path : Path)
  | metadata (path : Path)
  | readDir (path : Path)
  | createDirAll (path : Path)
  | writePath (path : Path) (contents : Bytes)
  | readToEnd (file : File)
  | nextLine (file : File)
  | nextSplit (file : File) (delimiter : UInt8)
  | read (file : File) (size : Nat)
  | write (file : File) (bytes : Bytes)
  | poll (fds : List PollFd) (timeout : Option Timespec)
  | isatty (fd : Fd)
  | tcgetattr (fd : Fd)
  | tcsetattr (fd : Fd) (now : Bool) (attr : Termios)
  | tcgetwinsize (fd : Fd)
  | tcsetwinsize (fd : Fd) (ws : Winsize)
  | dup (fd : Fd)
  | openpt
  | grantpt (fd : Fd)
  | unlockpt (fd : Fd)
  | ptsname (fd : Fd)
  | setsid
  | openTerminal (path : Path)
  | tiocsctty (fd : Fd)
  | dup2 (fd : Fd) (target : Fd)
  | closeFd (fd : Fd)
  | socketpair
  | dropSocket (socket : SocketEnd)
  | sendmsg (message : Bytes) (files : List Fd)
  | recvmsg (length : Nat)
  | pipe
  | sleep
  | fork
  | waitpid (pid : Pid) (untraced : Bool)
  | kill (pid : Pid) (sig : Signal)
  | raise (sig : Signal)
  | openNamespace (procfsPath : Path) (pid : Pid) (kind : Kind)
  | namespaceLink (procfsPath : Path) (pid : Pid) (kind : Kind)
  | ownNamespaceLink (kind : Kind)
  | setns (kind : Kind) (ns : NsId)
  | unshareMount
  | unshareUser
  | makeMountsPrivate
  | mountTmpfs (path : Path)
  | bindMount (source : Path) (target : Path)
  | openTree (base : TreeBase) (path : Path)
  | idmapMount (tree : Fd) (userns : NsId)
  | moveMount (tree : Fd) (target : Path)
  | openLocaltime
  | readContainerRoot
  | statIsDirectory (name : Bytes)
  | setThreadGroups
  | setThreadGid (gid : Nat)
  | setThreadUid (uid : Nat)
  | dropBounding (bits : BitVec 64)
  | chdir (path : Path)
  | chroot (path : Path)
  | exec (command : Bytes) (arguments : List Bytes) (envs : Environment)

/-- The result of a call. Lines, and the content that `readToString` gives, are
not decoded yet; the items of `openLines` are all that the reader would yield up
to the end of the file, `nextLine` and `nextSplit` give one item, and `none` at
the end of the file. -/
@[reducible] def Syscall.Answer : Syscall → Type
  | .getenv _ => Option Bytes
  | .geteuidIsRoot => Bool
  | .getuid | .getgid => Nat
  | .getpid => Pid
  | .openFile _ _ => Except IoError Unit
  | .openLines _ => Except IoError (List (Except IoError Bytes))
  | .nextLine _ | .nextSplit _ _ => Except IoError (Option Bytes)
  | .readToString _ | .readLink _ | .readToEnd _ => Except IoError Bytes
  | .metadata _ => Except IoError Metadata
  | .readDir _ => Except IoError (List (Except IoError Bytes))
  | .createDirAll _ | .writePath _ _ => Except IoError Unit
  | .read _ size => Except IoError { bytes : Bytes // bytes.length ≤ size }
  | .write _ bytes => Except IoError (Fin (bytes.length + 1))
  | .poll fds _ => Except Errno { ready : List Bool // ready.length = fds.length }
  | .isatty _ => Bool
  | .tcgetattr _ => Except Errno Termios
  | .tcsetattr _ _ _ => Except Errno Unit
  | .tcgetwinsize _ => Except Errno Winsize
  | .tcsetwinsize _ _ => Except Errno Unit
  | .dup _ | .openpt | .openTerminal _ => Except Errno Fd
  | .grantpt _ | .unlockpt _ | .setsid | .tiocsctty _ | .dup2 _ _ => Except Errno Unit
  | .ptsname _ => Except Errno Bytes
  | .socketpair => Except Errno Unit
  | .closeFd _ | .dropSocket _ | .sleep => Unit
  | .sendmsg _ _ => Except Errno Unit
  | .recvmsg _ => Except Errno (Bytes × List Fd)
  | .pipe => Except Errno (Fd × Fd)
  | .fork => Except Errno Fork
  | .waitpid _ _ => Except Errno (Option WaitStatus)
  | .kill _ _ => Except Errno Unit
  | .raise _ => Raised
  | .openNamespace _ _ _ => Except IoError NsId
  | .namespaceLink _ _ _ | .ownNamespaceLink _ => Except IoError NsId
  | .setns _ _ => Except Errno Unit
  | .unshareMount | .unshareUser | .makeMountsPrivate => Except Errno Unit
  | .mountTmpfs _ | .bindMount _ _ => Except Errno Unit
  | .openTree _ _ => Except Errno Fd
  | .idmapMount _ _ => Except IoError Unit
  | .moveMount _ _ => Except Errno Unit
  | .openLocaltime => Except Errno Unit
  | .readContainerRoot => Except Errno (List (Except Errno DirEntry))
  | .statIsDirectory _ => Except Errno Bool
  | .setThreadGroups | .setThreadGid _ | .setThreadUid _ => Except Errno Unit
  | .dropBounding _ => Except Errno Unit
  | .chdir _ => Except IoError Unit
  | .chroot _ => Except Errno Unit
  | .exec _ _ _ => Except IoError Unit

def Errno.perm : Errno := ⟨1⟩

/-- The answers of a system on which whatever can fail fails. -/
def Syscall.refused : (c : Syscall) → c.Answer
  | .getenv _ => none
  | .geteuidIsRoot => false
  | .getuid | .getgid => 0
  | .getpid => ⟨1, by decide⟩
  | .openFile _ _ | .openLines _ => .error (.os .perm)
  | .nextLine _ | .nextSplit _ _ => .error (.os .perm)
  | .readToString _ | .readLink _ | .readToEnd _ | .readDir _ => .error (.os .perm)
  | .metadata _ => .error (.os .perm)
  | .createDirAll _ | .writePath _ _ => .error (.os .perm)
  | .read _ _ | .write _ _ => .error (.os .perm)
  | .poll _ _ => .error .perm
  | .isatty _ => false
  | .tcgetattr _ | .tcsetattr _ _ _ | .tcgetwinsize _ | .tcsetwinsize _ _ => .error .perm
  | .dup _ | .openpt | .openTerminal _ => .error .perm
  | .grantpt _ | .unlockpt _ | .setsid | .tiocsctty _ | .dup2 _ _ => .error .perm
  | .ptsname _ => .error .perm
  | .closeFd _ | .dropSocket _ | .sleep => ()
  | .socketpair | .sendmsg _ _ | .recvmsg _ | .pipe => .error .perm
  | .fork | .waitpid _ _ | .kill _ _ => .error .perm
  | .raise _ => .survived
  | .openNamespace _ _ _ | .namespaceLink _ _ _ | .ownNamespaceLink _ => .error (.os .perm)
  | .setns _ _ | .unshareMount | .unshareUser | .makeMountsPrivate => .error .perm
  | .mountTmpfs _ | .bindMount _ _ | .openTree _ _ | .moveMount _ _ => .error .perm
  | .idmapMount _ _ => .error (.os .perm)
  | .openLocaltime | .readContainerRoot | .statIsDirectory _ => .error .perm
  | .setThreadGroups | .setThreadGid _ | .setThreadUid _ => .error .perm
  | .dropBounding _ | .chroot _ => .error .perm
  | .chdir _ | .exec _ _ _ => .error (.os .perm)

/-- What `read_to_string` makes of the content of a file. -/
def decodeText : Except IoError Bytes → Except IoError Bytes
  | .ok contents => if isUtf8 contents then .ok contents else .error .invalidData
  | .error e => .error e

theorem decodeText_ok {contents : Bytes} (h : isUtf8 contents = true) :
    decodeText (.ok contents) = .ok contents := if_pos h

@[reducible] def linux : Signature := ⟨Syscall, Syscall.Answer⟩

/-- Programs that return a value, fail with an error or end the process. -/
abbrev Sys (ε α : Type) : Type 1 := Program linux Halt ε α

/-- The calls that were made and their answers, oldest first. -/
abbrev Log := List (Event linux)

/-- Make a system call. -/
abbrev sys {ε : Type} (c : Syscall) : Sys ε c.Answer := Program.call (S := linux) c

end Cntr.SystemCalls
