import Dbfs2.OrdMap
import Dbfs2.BigEndian
import Dbfs2.Store
import Dbfs2.Common
import Dbfs2.Keys
import Dbfs2.Db
import Dbfs2.Inode
import Dbfs2.InodeSpec
import Dbfs2.FsType
import Dbfs2.Authority
import Dbfs2.NameGraph
import Dbfs2.NameTally
import Dbfs2.NameTree
import Dbfs2.Names
import Dbfs2.NameRuns
import Dbfs2.Slices
import Dbfs2.File
import Dbfs2.FileSpec
import Dbfs2.Memory
import Dbfs2.RawWrite
import Dbfs2.FileRead
import Dbfs2.RoundTrip
import Dbfs2.Lockstep
import Dbfs2.Scratch
import Dbfs2.DiskSize
import Dbfs2.Serial
import Dbfs2.Regrowth
import Dbfs2.Attr
import Dbfs2.Access
import Dbfs2.Xattr
import Dbfs2.Holes
import Dbfs2.ReadLength
import Dbfs2.CopyRange
import Dbfs2.SliceSafety
import Dbfs2.Aliasing
import Dbfs2.Changes
import Dbfs2.Calls
import Dbfs2.Ownership
import Dbfs2.Rvfs
import Dbfs2.Ops
import Dbfs2.Times
import Dbfs2.Cached
import Dbfs2.Metadata
import Dbfs2.Creation
import Dbfs2.Symlinks
import Dbfs2.Replies
import Dbfs2.Setattr
import Dbfs2.Readdir
import Dbfs2.Listing
import Dbfs2.KeySpace
import Dbfs2.XattrList
import Dbfs2.AttrHooks
import Dbfs2.Paging
import Dbfs2.Dirents
import Dbfs2.Handles
import Dbfs2.Renames
import Dbfs2.Replace
import Dbfs2.Moves
import Dbfs2.Exchange
import Dbfs2.Deletion
import Dbfs2.Sessions
import Dbfs2.NameSteps
import Dbfs2.FileTree
import Dbfs2.TreeRuns
import Dbfs2.Paths
import Dbfs2.Threads
import Dbfs2.Remounts
import Dbfs2.Buckets
import Dbfs2.BucketPaths
import Dbfs2.Extend
import Dbfs2.BucketHandles
import Dbfs2.Operates
import Dbfs2.Requests
import Dbfs2.Serving
