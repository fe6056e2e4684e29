import InodeFS.Server

/-! `chfs_client`. -/
namespace InodeFS.ChfsClient

open Bytes Exec

/-- `chfs_client::xxstatus`. -/
inductive Status where
  | OK
  | RPCERR
  | NOENT
  | IOERR
  | EXIST
  deriving DecidableEq

def setattr (stack ino size : Nat) : Action Status := do
  ExtentServer.setAttr stack ino size
  return .OK

def readdir (m : Machine) (stack dir : Nat) : Except Stop (List (Nat × CString)) :=
  ExtentServer.readDir m stack dir

/-- The inum of the first entry with this name; `none` leaves `found` false. -/
def lookup (m : Machine) (stack parent : Nat) (name : CString) : Except Stop (Option Nat) := do
  let contents ← readdir m stack parent
  return (contents.find? fun content => name == content.2).map Prod.fst

/-- The body which `create`, `mkdir` and `ln` share. The second result is
`ino_out`, which stays as it was when the name exists. -/
def createNode (type : FileType) (stack parent : Nat) (name : CString) (inoOut : Nat) :
    Action (Status × Nat) := do
  match ← query (lookup · stack parent name) with
  | some _ => return (.EXIST, inoOut)
  | none =>
      let inoOut ← ExtentServer.create type
      ExtentServer.addToDir stack parent inoOut name
      return (.OK, inoOut)

def create := createNode .T_FILE

def mkdir := createNode .T_DIR

def ln := createNode .T_LNK

/-- `off + size` is a `size_t` sum. -/
def read (m : Machine) (stack ino size off : Nat) : Except Stop (List Byte) := do
  let readStr ← ExtentServer.get m stack ino
  let readStrSize := readStr.length % 2 ^ 32
  if readStrSize < off then return []
  else if readStrSize < (off + size) % 2 ^ 64 then return readStr.drop off
  else return (readStr.drop off).take size

/-- `std::string::max_size()`. -/
def maxStringSize : Nat := 2 ^ 62 - 1

/-- `std::string::resize`, as far as it does not depend on the memory of the process. -/
def resize (str : List Byte) (n : Nat) : Except Stop (List Byte) :=
  if n ≤ maxStringSize then .ok (padTo n str) else .error .lengthError

/-- The loop of `write`: `data` replaces the bytes from `off` on. The counter is a
`uint32_t`. It never reaches a bound of `2 ^ 32` or more, but starts again at 0, where the
loop reads `data` at the index `-off`. -/
def copyLoop (readStr : List Byte) (off : Nat) (data : List Byte) : Except Stop (List Byte) :=
  if off + data.length < 2 ^ 32 then
    .ok (readStr.take off ++ data ++ readStr.drop (off + data.length))
  else if off = 0 then .error .endlessLoop
  else .error .wildRead

/-- The new string of `write`. -/
def overwrite (readStr : List Byte) (off : Nat) (data : List Byte) : Except Stop (List Byte) :=
  if off + data.length > readStr.length then do
    copyLoop (← resize readStr (off + data.length)) off data
  else copyLoop readStr off data

/-- `chfs_client::write`, with `data` the `size` bytes behind the pointer. The
second result is `bytes_written`. -/
def write (stack ino off : Nat) (data : List Byte) : Action (Status × Nat) := do
  let readStr ← query (ExtentServer.get · stack ino)
  let _ ← setattr stack ino 0
  let readStr ← query fun _ => overwrite readStr off data
  ExtentServer.put stack ino readStr
  return (.OK, data.length)

def unlink (stack parent : Nat) (name : CString) : Action Status := do
  let files ← query (readdir · stack parent)
  match files.find? fun file => file.2 == name with
  | none => return .OK
  | some file =>
      ExtentServer.remove stack file.1
      ExtentServer.removeFromDir stack parent file.1
      return .OK

end InodeFS.ChfsClient
