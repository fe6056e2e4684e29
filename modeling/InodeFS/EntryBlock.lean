import InodeFS.Volume

/-! The block of one directory entry. `add_to_dir` copies the name by its length into
a buffer of one block, and no caller bounds the length. -/
namespace InodeFS

open Bytes Exec Store Relation

namespace ExtentServer

open ChfsClient

section Room

variable {σ : Store} {N : Entries} {C : List Nat} {p : Nat}

end Room

section Entry

variable {stack : Nat} {clock : Nat → UInt32} {v w : Volume} {N : Entries} {C : List Nat}
  {p id : Nat} {name : CString}

end Entry

end ExtentServer
end InodeFS
