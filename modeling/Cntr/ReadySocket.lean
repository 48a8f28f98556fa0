import Cntr.SystemCalls

namespace Cntr.ReadySocket

open Cntr.ByteText
open Cntr.CallTree
open Cntr.SystemCalls

inductive IpcError where
  | send (source : Errno)
  | receive (source : Errno)
  | socketPair (source : Errno)
  deriving DecidableEq

def send (message : Bytes) (files : List Fd) : Sys IpcError Unit := do
  Program.ofExcept .send (← sys (.sendmsg message files))

def receiveRound (messageLength : Nat) : Sys IpcError (Unit ⊕ (Bytes × List Fd)) := do
  match ← sys (.recvmsg messageLength) with
  | .ok message => return .inr message
  | .error e =>
      if e = Errno.again ∨ e = Errno.intr then return .inl () else .fail (.receive e)

def receive (messageLength : Nat) : Sys IpcError (Bytes × List Fd) :=
  .iterate (fun _ : Unit => receiveRound messageLength) () .done

def socketPair : Sys IpcError Unit := do
  Program.ofExcept .socketPair (← sys .socketpair)

end Cntr.ReadySocket
