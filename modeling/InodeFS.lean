import InodeFS.Library.Exec
import InodeFS.Library.Invariant
import InodeFS.Library.Reach
import InodeFS.Library.Bytes
import InodeFS.Library.Forest
import InodeFS.Library.Pages
import InodeFS.Library.SwapOut
import InodeFS.Library.Monitor
import InodeFS.Library.Wire
import InodeFS.Disk
import InodeFS.Inode
import InodeFS.File
import InodeFS.Directory
import InodeFS.Server
import InodeFS.Client
import InodeFS.History
import InodeFS.Store
import InodeFS.Primitive
import InodeFS.Tree
import InodeFS.Growth
import InodeFS.Layout
import InodeFS.Write
import InodeFS.WriteFile
import InodeFS.Enumeration
import InodeFS.Remove
import InodeFS.Intact
import InodeFS.Session
import InodeFS.Allocator
import InodeFS.Isolation
import InodeFS.WriteResult
import InodeFS.RoundTrip
import InodeFS.ReadBounds
import InodeFS.Traversal
import InodeFS.Truncate
import InodeFS.Shortage
import InodeFS.Reclaim
import InodeFS.Padding
import InodeFS.Demand
import InodeFS.Resize
import InodeFS.SetAttr
import InodeFS.Integrity
import InodeFS.AllocInode
import InodeFS.FileSize
import InodeFS.Entries
import InodeFS.ChildEntries
import InodeFS.AllEntries
import InodeFS.Volume
import InodeFS.EntryBlock
import InodeFS.ChildSizes
import InodeFS.BlankChildren
import InodeFS.SetBlockId
import InodeFS.Shrink
import InodeFS.EntriesInUse
import InodeFS.NameMap
import InodeFS.Unlink
import InodeFS.Separation
import InodeFS.Discard
import InodeFS.ReadWrite
import InodeFS.FailedWrite
import InodeFS.Clean
import InodeFS.CleanFile
import InodeFS.CleanRun
import InodeFS.RemoveAbsent
import InodeFS.Removal
import InodeFS.Vacancy
import InodeFS.Deposit
import InodeFS.Creation
import InodeFS.RemoveOne
import InodeFS.Remanence
import InodeFS.Graph
import InodeFS.Descent
import InodeFS.Cycle
import InodeFS.Directories
import InodeFS.Contents
import InodeFS.Fuse
import InodeFS.Requests
import InodeFS.Attributes
import InodeFS.Accounts
import InodeFS.Service
import InodeFS.Fifo
import InodeFS.Rpc
