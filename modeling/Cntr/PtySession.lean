import Cntr.ShovelLoop

namespace Cntr.PtySession

open Cntr.ByteText
open Cntr.CallTree
open Cntr.SystemCalls
open Cntr.ShovelLoop

inductive PtyError where
  | getTermios (source : Errno)
  | setTermios (source : Errno)
  | dup (what : Bytes) (source : Errno)
  | openPtyMaster (source : Errno)
  | grantpt (source : Errno)
  | unlockpt (source : Errno)
  | ptsname (source : Errno)
  | ptsnameNotUtf8
  | setsid (source : Errno)
  | openPtySlave (path : Path) (source : Errno)
  | dup2 (what : Bytes) (source : Errno)
  | waitPid (source : Errno)
  | unexpectedWaitEvent (status : WaitStatus)
  deriving DecidableEq

namespace RawTty

/-- `IGNBRK | BRKINT | PARMRK | ISTRIP | INLCR | IGNCR | ICRNL | IXON`. -/
def inputModes : UInt32 := 0x5eb

/-- `OPOST`. -/
def outputModes : UInt32 := 0x1

/-- `ECHO | ECHONL | ICANON | ISIG | IEXTEN`. -/
def localModes : UInt32 := 0x804b

/-- `CSIZE | PARENB`. -/
def controlModes : UInt32 := 0x130

def cs8 : UInt32 := 0x30

def raw (attr : Termios) : Termios where
  inputModes := attr.inputModes &&& ~~~inputModes
  outputModes := attr.outputModes &&& ~~~outputModes
  localModes := attr.localModes &&& ~~~localModes
  controlModes := attr.controlModes &&& ~~~controlModes ||| cs8
  vmin := 1
  vtime := 0

/-- The attributes that `drop` restores. -/
def new : Sys PtyError Termios := do
  let origAttr ← Program.ofExcept .getTermios (← sys (.tcgetattr stdin))
  Program.ofExcept .setTermios (← sys (.tcsetattr stdin false (raw origAttr)))
  return origAttr

def drop (rawTty : Option Termios) : Sys PtyError Unit :=
  match rawTty with
  | none => return ()
  | some attr => do
      let _ ← sys (.tcsetattr stdin true attr)

end RawTty

def dupFd (what : Bytes) (fd : Fd) : Sys PtyError Fd := do
  Program.ofExcept (.dup what) (← sys (.dup fd))

/-- `forward` once the terminal is raw. -/
def forwardFiles (pty : Fd) (isTty : Bool) : Sys PtyError Unit := do
  let stdinFile ← dupFd (ascii "stdin") stdin
  let stdoutFile ← dupFd (ascii "stdout") stdout
  let ptyFile ← dupFd (ascii "pty master") pty
  shovel (newPairs 0 [(stdinFile, ptyFile), (ptyFile, stdoutFile)])
    (if isTty then some pty else none)

def newRawTty (isTty : Bool) : Sys PtyError (Option Termios) :=
  if isTty then do return some (← RawTty.new) else return none

def forward (pty : Fd) : Sys PtyError Unit := do
  let isTty ← sys (.isatty stdin)
  let rawTty ← newRawTty isTty
  let res ← (forwardFiles pty isTty).attempt
  RawTty.drop rawTty
  Program.ofExcept id res

def stdioIsTty {ε : Type} : Sys ε Bool := do
  if ← sys (.isatty stdin) then sys (.isatty stdout) else return false

/-- `kill_process(getpid(), sig)` for a signal that may end the process. -/
def raise {ε : Type} (sig : Signal) : Sys ε Unit := do
  match ← sys (.raise sig) with
  | .died => .halt (.signaled sig)
  | .survived => return ()

def raiseNamed {ε : Type} (sig : Nat) : Sys ε Unit :=
  match Signal.fromNamedRaw sig with
  | some signal => raise signal
  | none => return ()

/-- What is done with a status of the child; `inl` waits again. -/
def handleStatus (childPid : Pid) (status : WaitStatus) : Sys PtyError (Unit ⊕ Empty) :=
  if status.isStopped then do
    let _ ← sys (.raise .stop)
    let _ ← sys (.kill childPid .cont)
    return .inl ()
  else
    match status.terminatingSignal, status.exitStatus with
    | some sig, _ => do
        raiseNamed sig
        .halt (.exited (128 + sig))
    | none, some code => .halt (.exited code)
    | none, none => .fail (.unexpectedWaitEvent status)

def waitRound (childPid : Pid) : Sys PtyError (Unit ⊕ Empty) := do
  match ← sys (.waitpid childPid true) with
  | .ok (some status) => handleStatus childPid status
  | .ok none => return .inl ()
  | .error e => if e = Errno.intr then return .inl () else .fail (.waitPid e)

def waitForChild (childPid : Pid) : Sys PtyError Empty :=
  .iterate (fun _ : Unit => waitRound childPid) () .done

def forwardPtyAndWait (pty : Fd) (childPid : Pid) : Sys PtyError Empty := do
  let _ : Except PtyError Unit ← (forward pty).attempt
  waitForChild childPid

def openPtm : Sys PtyError Fd := do
  let ptyMaster ← Program.ofExcept .openPtyMaster (← sys .openpt)
  Program.ofExcept .grantpt (← sys (.grantpt ptyMaster))
  Program.ofExcept .unlockpt (← sys (.unlockpt ptyMaster))
  return ptyMaster

def attachPts (ptyMaster : Fd) : Sys PtyError Unit := do
  let ptsName ← Program.ofExcept .ptsname (← sys (.ptsname ptyMaster))
  if isUtf8 ptsName then
    Program.ofExcept .setsid (← sys .setsid)
    let ptySlave ← Program.ofExcept (.openPtySlave ptsName) (← sys (.openTerminal ptsName))
    let _ ← sys (.tiocsctty ptySlave)
    Program.ofExcept (.dup2 (ascii "stdin")) (← sys (.dup2 ptySlave stdin))
    Program.ofExcept (.dup2 (ascii "stdout")) (← sys (.dup2 ptySlave stdout))
    Program.ofExcept (.dup2 (ascii "stderr")) (← sys (.dup2 ptySlave stderr))
    sys (.closeFd ptySlave)
  else
    .fail .ptsnameNotUtf8

end Cntr.PtySession
