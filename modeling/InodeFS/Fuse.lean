import InodeFS.History

/-! `fuse.cc`: the handlers that answer the requests of the kernel with calls of
`chfs_client`. A session is a sequence of requests, and the calls that its handlers make
are a run of the client. -/
namespace InodeFS

open Bytes Exec

namespace ChfsClient

structure FileInfo where
  size : Nat
  atime : UInt32
  mtime : UInt32
  ctime : UInt32

structure DirInfo where
  atime : UInt32
  mtime : UInt32
  ctime : UInt32

def isfile (m : Machine) (stack inum : Nat) : Except Stop Bool := do
  let a ← ExtentServer.getattr m stack inum
  return a.type == FileType.T_FILE.code

def isdir (m : Machine) (stack inum : Nat) : Except Stop Bool := do
  let a ← ExtentServer.getattr m stack inum
  return a.type == FileType.T_DIR.code

def getfile (m : Machine) (stack inum : Nat) : Except Stop FileInfo := do
  let a ← ExtentServer.getattr m stack inum
  return { size := a.size, atime := a.atime, mtime := a.mtime, ctime := a.ctime }

def getdir (m : Machine) (stack inum : Nat) : Except Stop DirInfo := do
  let a ← ExtentServer.getattr m stack inum
  return { atime := a.atime, mtime := a.mtime, ctime := a.ctime }

end ChfsClient

namespace Fuse

open ChfsClient

/-- The fields of `struct stat` that `getattr` fills in. -/
structure Stat where
  ino : Nat
  mode : Nat
  nlink : Nat
  size : Nat
  atime : UInt32
  mtime : UInt32
  ctime : UInt32

def S_IFREG : Nat := 0o100000

def S_IFDIR : Nat := 0o040000

def S_IFLNK : Nat := 0o120000

def getattr (m : Machine) (stack inum : Nat) : Except Stop Stat := do
  if ← isfile m stack inum then
    let info ← getfile m stack inum
    return { ino := inum, mode := S_IFREG ||| 0o666, nlink := 1, size := info.size,
             atime := info.atime, mtime := info.mtime, ctime := info.ctime }
  else if ← isdir m stack inum then
    let info ← getdir m stack inum
    return { ino := inum, mode := S_IFDIR ||| 0o777, nlink := 2, size := 0,
             atime := info.atime, mtime := info.mtime, ctime := info.ctime }
  else
    let info ← getfile m stack inum
    return { ino := inum, mode := S_IFLNK ||| 0o777, nlink := 1, size := info.size,
             atime := 0, mtime := 0, ctime := 0 }

/-- The codes of `fuse_reply_err`; 0 reports success. -/
inductive Errno where
  | success
  | ENOENT
  | EEXIST
  | ENOTDIR
  | ENOSYS
  | ENOTEMPTY
  deriving DecidableEq

/-- `fuse_entry_param`, whose timeouts and generation are always 0. -/
structure EntryParam where
  ino : Nat
  attr : Stat

inductive Request where
  | getattr (ino : Nat)
  /-- `setSize` is the bit `FUSE_SET_ATTR_SIZE` of `to_set`. -/
  | setattr (ino size : Nat) (setSize : Bool)
  | read (ino size off : Nat)
  | write (ino off : Nat) (buf : List Byte)
  | create (parent : Nat) (name : CString)
  | mknod (parent : Nat) (name : CString)
  | lookup (parent : Nat) (name : CString)
  | readdir (ino size off : Nat)
  | open (ino : Nat)
  | mkdir (parent : Nat) (name : CString)
  | unlink (parent : Nat) (name : CString)
  | statfs
  | symlink (link : CString) (parent : Nat) (name : CString)
  | readlink (ino : Nat)

inductive Reply where
  | err (errno : Errno)
  | attr (st : Stat)
  | buf (data : List Byte)
  | write (count : Nat)
  | entry (e : EntryParam)
  | create (e : EntryParam)
  | open
  | statfs (bsize namemax : Nat)

/-- What `fuse_dirent_size` and `fuse_add_dirent` of libfuse do: the bytes of an entry
with its name, its inum and the offset of the entry behind it. -/
structure Dirents where
  size : Nat → Nat
  bytes : CString → Nat → Nat → List Byte
  length_bytes : ∀ name ino off, (bytes name ino off).length = size name.bytes.length

/-- `struct dirbuf` after `dirbuf_add`. Its size is the length of the bytes. -/
def dirbufAdd (fmt : Dirents) (b : List Byte) (name : CString) (ino : Nat) : List Byte :=
  b ++ fmt.bytes name ino (b.length + fmt.size name.bytes.length)

def replyBufLimited (buf : List Byte) (off maxsize : Nat) : Reply :=
  if off < buf.length then .buf ((buf.drop off).take (min (buf.length - off) maxsize)) else .buf []

/-- `fuseserver_createhelper`. The error is what `create`, `mkdir` or `ln` returned. -/
def createhelper (stack parent : Nat) (name : CString) (type : FileType) :
    Action (Except Status EntryParam) := do
  let (ret, inum) ← createNode type stack parent name 0
  if ret ≠ .OK then return .error ret
  let attr ← query (getattr · stack inum)
  return .ok { ino := inum, attr := attr }

/-- The reply of `fuseserver_create` and `fuseserver_mknod` to a failure. -/
def createError (ret : Status) : Reply := if ret = .EXIST then .err .EEXIST else .err .ENOENT

/-- The handlers. Some paths end without a reply. -/
def serve (fmt : Dirents) (stack : Nat) : Request → Action (Option Reply)
  | .getattr ino => do return some (.attr (← query (getattr · stack ino)))
  | .setattr ino size setSize => do
      if setSize then
        let _ ← setattr stack ino size
        return some (.attr (← query (getattr · stack ino)))
      else return some (.err .ENOSYS)
  | .read ino size off => do return some (.buf (← query (read · stack ino size off)))
  | .write ino off buf => do
      let (_, writeBytes) ← write stack ino off buf
      return some (.write writeBytes)
  | .create parent name => do
      match ← createhelper stack parent name .T_FILE with
      | .ok e => return some (.create e)
      | .error ret => return some (createError ret)
  | .mknod parent name => do
      match ← createhelper stack parent name .T_FILE with
      | .ok e => return some (.entry e)
      | .error ret => return some (createError ret)
  | .lookup parent name => do
      match ← query (lookup · stack parent name) with
      | some ino => return some (.entry { ino := ino, attr := ← query (getattr · stack ino) })
      | none => return some (.err .ENOENT)
  | .readdir ino size off => do
      if ← query (isdir · stack ino) then
        let entries ← query (readdir · stack ino)
        let b := entries.foldl (fun b it => dirbufAdd fmt b it.2 it.1) []
        return some (replyBufLimited b off size)
      else return some (.err .ENOTDIR)
  | .open _ => return some .open
  | .mkdir parent name => do
      match ← createhelper stack parent name .T_DIR with
      | .ok e => return some (.entry e)
      | .error ret => return if ret = .EXIST then some (.err .EEXIST) else none
  | .unlink parent name => do
      let r ← unlink stack parent name
      if r = .OK then return some (.err .success)
      else return some (if r = .NOENT then .err .ENOENT else .err .ENOTEMPTY)
  | .statfs => return some (.statfs 512 255)
  | .symlink link parent name => do
      match ← createhelper stack parent name .T_LNK with
      | .ok e =>
          let _ ← write stack e.ino 0 link.bytes
          return some (.entry e)
      | .error _ => return some (.err .EEXIST)
  | .readlink ino => do return some (.buf (← query (read · stack ino (2 ^ 32 - 1) 0)))

abbrev Log := List (Request × Option Reply)

/-- The calls of the client that change the disk, as a request and its reply tell them. -/
def calls : Request × Option Reply → History
  | (.setattr ino size true, _) => [(.setattr ino size, .setattr .OK)]
  | (.write ino off buf, _) => [(.write ino off buf, .write .OK buf.length)]
  | (.create parent name, some (.create e)) => [(.node .T_FILE parent name 0, .node .OK e.ino)]
  | (.create parent name, _) => [(.node .T_FILE parent name 0, .node .EXIST 0)]
  | (.mknod parent name, some (.entry e)) => [(.node .T_FILE parent name 0, .node .OK e.ino)]
  | (.mknod parent name, _) => [(.node .T_FILE parent name 0, .node .EXIST 0)]
  | (.mkdir parent name, some (.entry e)) => [(.node .T_DIR parent name 0, .node .OK e.ino)]
  | (.mkdir parent name, _) => [(.node .T_DIR parent name 0, .node .EXIST 0)]
  | (.unlink parent name, _) => [(.unlink parent name, .unlink .OK)]
  | (.symlink link parent name, some (.entry e)) =>
      [(.node .T_LNK parent name 0, .node .OK e.ino),
       (.write e.ino 0 link.bytes, .write .OK link.bytes.length)]
  | (.symlink _ parent name, _) => [(.node .T_LNK parent name 0, .node .EXIST 0)]
  | _ => []

def history (s : Log) : History := s.flatMap calls

/-- The sessions of requests that all returned. An exception that a handler does not catch
ends the server. -/
inductive Session (fmt : Dirents) (stack : Nat) (clock : Nat → UInt32)
    (allowed : Log → Machine → Request → Prop) : Log → Machine → Prop where
  | start {m : Machine} (hInit : initInodeManager (Machine.zeroed clock) = .ok () m) :
      Session fmt stack clock allowed [] m
  | step {s : Log} {m m' : Machine} {request : Request} {reply : Option Reply}
      (prior : Session fmt stack clock allowed s m) (hAllowed : allowed s m request)
      (hServe : serve fmt stack request m = .ok reply m') :
      Session fmt stack clock allowed (s ++ [(request, reply)]) m'

/-- The calls of a request that change the disk are admitted. -/
def Admits (allowed : History → Machine → Call → Prop) (h : History) (m : Machine) : Request → Prop
  | .setattr ino size true => allowed h m (.setattr ino size)
  | .write ino off buf => allowed h m (.write ino off buf)
  | .create parent name => allowed h m (.node .T_FILE parent name 0)
  | .mknod parent name => allowed h m (.node .T_FILE parent name 0)
  | .mkdir parent name => allowed h m (.node .T_DIR parent name 0)
  | .unlink parent name => allowed h m (.unlink parent name)
  | .symlink link parent name => allowed h m (.node .T_LNK parent name 0) ∧
      ∀ i m', allowed (h ++ [(.node .T_LNK parent name 0, .node .OK i)]) m' (.write i 0 link.bytes)
  | _ => True

end Fuse
end InodeFS
