import InodeFS.Client

/-! Runs of `chfs_client`. A history lists the calls of a run, each with what it
returned. -/
namespace InodeFS.ChfsClient

open Bytes Exec

inductive Call where
  /-- `create`, `mkdir` or `ln`, by the type of the new inode. -/
  | node (type : FileType) (parent : Nat) (name : CString) (inoOut : Nat)
  | lookup (parent : Nat) (name : CString)
  | readdir (dir : Nat)
  | getattr (ino : Nat)
  | read (ino size off : Nat)
  | write (ino off : Nat) (data : List Byte)
  | setattr (ino size : Nat)
  | unlink (parent : Nat) (name : CString)

inductive Reply where
  | node (status : Status) (ino : Nat)
  | lookup (found : Option Nat)
  | readdir (entries : List (Nat × CString))
  | getattr (attr : Attr)
  | read (data : List Byte)
  | write (status : Status) (bytesWritten : Nat)
  | setattr (status : Status)
  | unlink (status : Status)
  /-- The call threw `bad_alloc`. -/
  | badAlloc

def perform (stack : Nat) : Call → Action Reply
  | .node type parent name inoOut => do
      let (status, ino) ← createNode type stack parent name inoOut
      return .node status ino
  | .lookup parent name => do return .lookup (← query (lookup · stack parent name))
  | .readdir dir => do return .readdir (← query (readdir · stack dir))
  | .getattr ino => do return .getattr (← query (ExtentServer.getattr · stack ino))
  | .read ino size off => do return .read (← query (read · stack ino size off))
  | .write ino off data => do
      let (status, bytesWritten) ← write stack ino off data
      return .write status bytesWritten
  | .setattr ino size => do return .setattr (← setattr stack ino size)
  | .unlink parent name => do return .unlink (← unlink stack parent name)

abbrev History := List (Call × Reply)

/-- The states reached from a fresh file system by calls that `allowed` admits.
A call may return or throw `bad_alloc`; any other error ends the run. -/
inductive Run (stack : Nat) (clock : Nat → UInt32) (allowed : History → Machine → Call → Prop) :
    History → Machine → Prop where
  | start {m : Machine} (hInit : initInodeManager (Machine.zeroed clock) = .ok () m) :
      Run stack clock allowed [] m
  | step {h : History} {m m' : Machine} {call : Call} {reply : Reply}
      (prior : Run stack clock allowed h m) (hAllowed : allowed h m call)
      (hRun : perform stack call m = .ok reply m') :
      Run stack clock allowed (h ++ [(call, reply)]) m'
  | failed {h : History} {m m' : Machine} {call : Call}
      (prior : Run stack clock allowed h m) (hAllowed : allowed h m call)
      (hRun : perform stack call m = .error .badAlloc m') :
      Run stack clock allowed (h ++ [(call, .badAlloc)]) m'

theorem Run.mono {stack : Nat} {clock : Nat → UInt32}
    {allowed allowed' : History → Machine → Call → Prop} {h : History} {m : Machine}
    (hRun : Run stack clock allowed h m)
    (hMore : ∀ h m call, allowed h m call → allowed' h m call) : Run stack clock allowed' h m := by
  induction hRun with
  | start hInit => exact .start hInit
  | step _ hAllowed hLast ih => exact ih.step (hMore _ _ _ hAllowed) hLast
  | failed _ hAllowed hLast ih => exact ih.failed (hMore _ _ _ hAllowed) hLast

end InodeFS.ChfsClient
