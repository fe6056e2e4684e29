import InodeFS.Directory

/-! `extent_server`. The client stub `extent_client` calls it directly. Ids are
64-bit; some methods mask them to 31 bits, the others pass them on as
`uint32_t`. -/
namespace InodeFS

open Bytes Exec

/-- `id &= 0x7fffffff`. -/
def maskId (id : Nat) : Nat := id % 2 ^ 31

/-- The conversion of a `size_t` to `int`. -/
def toInt (n : Nat) : Int := if n % 2 ^ 32 < 2 ^ 31 then n % 2 ^ 32 else n % 2 ^ 32 - 2 ^ 32

/-- `inode_manager::inode_manager`. A root inum other than 1 ends the process. -/
def initInodeManager : Action Unit := do
  let rootDir ← allocInode FileType.T_DIR.code
  if rootDir ≠ 1 then throw .segfault
  else return ()

namespace ExtentServer

def create (type : FileType) : Action Nat := allocInode type.code

def put (stack id : Nat) (buf : List Byte) : Action Unit :=
  writeFile stack (maskId id) buf (toInt buf.length)

def get (m : Machine) (stack id : Nat) : Except Stop (List Byte) := readFile m stack (maskId id)

def getattr (m : Machine) (stack id : Nat) : Except Stop Attr := getAttr m stack (maskId id)

def remove (stack id : Nat) : Action Unit := removeFile stack (maskId id)

def readDir (m : Machine) (stack id : Nat) : Except Stop (List (Nat × CString)) :=
  InodeFS.readDir m stack (id % 2 ^ 32)

def addToDir (stack parentId id : Nat) (name : CString) : Action Unit :=
  InodeFS.addToDir stack (parentId % 2 ^ 32) (id % 2 ^ 32) name

def removeFromDir (stack parentId id : Nat) : Action Unit :=
  InodeFS.removeFromDir stack (parentId % 2 ^ 32) (id % 2 ^ 32)

def setAttr (stack id size : Nat) : Action Unit := InodeFS.setAttr stack (id % 2 ^ 32) size

end ExtentServer
end InodeFS
