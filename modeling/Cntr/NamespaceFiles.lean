import Cntr.Procfs

namespace Cntr.NamespaceFiles

open Cntr.ByteText
open Cntr.CallTree
open Cntr.SystemCalls

inductive NamespaceError where
  | listNamespaces (source : IoError)
  | openNamespaceFile (path : Path) (source : IoError)
  | setNamespace (name : Bytes) (source : Errno)
  deriving DecidableEq

structure Namespace where
  kind : Kind
  file : NsId
  deriving DecidableEq

def namespaceDir : Path := ascii "/proc/self/ns"

/-- The names that `supported_namespaces` collects in a set: the entries up to
the first error, without those that are not UTF-8. -/
def namespaceNames (entries : List (Except IoError Bytes)) : Except IoError (List Bytes) := do
  let names ← entries.mapM id
  return names.filter isUtf8

def supportedNamespaces : Sys NamespaceError (List Bytes) := do
  let entries ← Program.ofExcept .listNamespaces (← sys (.readDir namespaceDir))
  .ofExcept .listNamespaces (namespaceNames entries)

def path (kind : Kind) (procfsPath : Path) (pid : Pid) : Path :=
  pushPath (pushPath (pushPath procfsPath pid.text) (ascii "ns")) kind.name

/-- `Kind::open`. -/
def openKind (kind : Kind) (pid : Pid) : Sys NamespaceError Namespace := do
  let procfsPath ← Procfs.getPath
  let file ← Program.ofExcept (.openNamespaceFile (path kind procfsPath pid))
    (← sys (.openNamespace procfsPath pid kind))
  return ⟨kind, file⟩

def isSame {ε : Type} (kind : Kind) (pid : Pid) : Sys ε Bool := do
  let procfsPath ← Procfs.getPath
  match ← sys (.namespaceLink procfsPath pid kind) with
  | .error _ => return false
  | .ok dest =>
      match ← sys (.ownNamespaceLink kind) with
      | .error _ => return false
      | .ok dest2 => return dest = dest2

def Namespace.apply (ns : Namespace) : Sys NamespaceError Unit := do
  Program.ofExcept (.setNamespace ns.kind.name) (← sys (.setns ns.kind ns.file))

theorem eq_map_of_mapM_id {entries : List (Except IoError Bytes)} {names : List Bytes}
    (h : entries.mapM id = .ok names) : entries = names.map .ok := by
  induction entries generalizing names with
  | nil =>
      obtain rfl : names = [] := by cases h; rfl
      rfl
  | cons entry entries ih =>
      rw [List.mapM_cons] at h
      cases entry with
      | error e => cases h
      | ok name =>
          cases hrest : entries.mapM id with
          | error e =>
              rw [hrest] at h
              cases h
          | ok rest =>
              rw [hrest] at h
              obtain rfl : name :: rest = names := by cases h; rfl
              rw [ih hrest, List.map_cons]

theorem name_mem_namespaceNames {entries : List (Except IoError Bytes)} {names : List Bytes}
    (h : namespaceNames entries = .ok names) (kind : Kind) :
    kind.name ∈ names ↔ .ok kind.name ∈ entries := by
  have hutf8 : isUtf8 kind.name = true := isUtf8_of_all (by cases kind <;> decide)
  rw [namespaceNames] at h
  cases hall : entries.mapM id with
  | error e =>
      rw [hall] at h
      cases h
  | ok all =>
      rw [hall] at h
      obtain rfl : all.filter isUtf8 = names := by cases h; rfl
      rw [eq_map_of_mapM_id hall]
      simp [List.mem_filter, hutf8]

end Cntr.NamespaceFiles
