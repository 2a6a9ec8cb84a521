-- The FUSE server (fuse/mod.rs, attr.rs, inode.rs, link.rs and file.rs of fuse): a function for
-- every request of the kernel. It checks a few arguments, hands the request on with the time of
-- the clock, and turns the result into an answer.
import Dbfs2.Readdir
import Dbfs2.Setattr
import Dbfs2.Symlinks
import Dbfs2.XattrList

namespace dbfs2

open common Tx inode attr file fs_type

/-- `x as i32`. -/
def common.DbfsError.code : DbfsError → Int32
  | PermissionDenied => 1
  | NotFound => 2
  | AccessError => 13
  | FileExists => 17
  | InvalidArgument => 22
  | NoSpace => 28
  | RangeError => 34
  | NameTooLong => 36
  | NoSys => 38
  | NotEmpty => 39
  | Io => 5
  | NotSupported => 95
  | NoData => 61
  | Other => 999

namespace fs_type

structure DbfsFsStat where
  f_bsize : UInt64
  f_frsize : UInt64
  f_blocks : Nat
  f_bfree : Nat
  f_bavail : Nat
  f_files : UInt64
  f_ffree : UInt64
  f_favail : UInt64
  f_fsid : UInt64
  f_flag : UInt64
  f_namemax : UInt64
  deriving DecidableEq

/-- The blocks are those that are left, in all three counts. -/
def dbfs_common_statfs [Features] (blk_size : Option UInt64) (magic : Option UInt32)
    (mount_flags : Option UInt64) : Fs DbfsFsStat := do
  let (disk_size, magic) ← Fs.read do
    get_super_blk
    let disk_size ← sb_usize .disk_size
    let magic ←
      match magic with
      | some magic => pure magic
      | none => sb_u32 .magic
    pure (disk_size, magic)
  let blk_size := blk_size.getD (UInt64.ofNat SLICE_SIZE)
  let total_inodes ← fun s => (.Ok s.DBFS_INODE_NUMBER, s)
  Fs.unwrap (if blk_size = 0 then none else some ())
  pure
    { f_bsize := blk_size, f_frsize := blk_size, f_blocks := disk_size / blk_size.toNat,
      f_bfree := disk_size / blk_size.toNat, f_bavail := disk_size / blk_size.toNat,
      f_files := total_inodes, f_ffree := 999, f_favail := 999, f_fsid := magic.toUInt64,
      f_flag := mount_flags.getD 0, f_namemax := 255 }

end fs_type

namespace fuse

/-! ## The functions behind the requests -/

def ENOENT : Int32 := 2
def EACCES : Int32 := 13
def EINVAL : Int32 := 22
def O_ACCMODE : Int32 := 3
def O_RDONLY : Int32 := 0
def O_WRONLY : Int32 := 1
def O_RDWR : Int32 := 2
def O_TRUNC : Int32 := 0o1000
def FMODE_EXEC : Int32 := 0x20
def R_OK : UInt16 := 4
def W_OK : UInt16 := 2
def X_OK : UInt16 := 1
def FOPEN_DIRECT_IO : UInt32 := 1

/-- `attr.into()`, which panics on a time that the system cannot hold. -/
def into (x : Fs DbfsAttr) : Fs FileAttr := do
  let attr ← x
  Fs.unwrap (FileAttr.from attr)

def dbfs_fuse_getattr (ino : UInt64) : Fs FileAttr := into (dbfs_common_attr ino)

def dbfs_fuse_statfs [Features] : Fs DbfsFsStat := dbfs_common_statfs none none none

def dbfs_fuse_access (uid gid : UInt32) (ino : UInt64) (mask : Int32) : Fs Bool :=
  dbfs_common_access uid gid ino mask

def dbfs_fuse_setxattr (uid gid : UInt32) (ino : UInt64) (name : String) (value : Bytes)
    (clock : Clock) : Fs Unit := dbfs_common_setxattr uid gid ino name value clock.ctime.spec

def dbfs_fuse_getxattr (uid gid : UInt32) (ino : UInt64) (name : String) (buf : Bytes) :
    Fs (Nat × Bytes) := dbfs_common_getxattr uid gid ino name buf

def dbfs_fuse_listxattr (uid gid : UInt32) (ino : UInt64) (buf : Bytes) : Fs (Nat × Bytes) :=
  dbfs_common_listxattr uid gid ino buf

def dbfs_fuse_removexattr (uid gid : UInt32) (ino : UInt64) (name : String) (clock : Clock) :
    Fs Unit := dbfs_common_removexattr uid gid ino name clock.ctime.spec

def dbfs_fuse_lookup (parent : UInt64) (name : String) : Fs FileAttr := do
  Fs.ensure (name.utf8ByteSize ≤ MAX_PATH_LEN) .NameTooLong
  into (dbfs_common_lookup parent name)

/-- Every permission of 16 bits is one, so that `from_bits_truncate` takes none away. -/
def dbfs_fuse_create [Features] (uid gid : UInt32) (parent : UInt64) (name : String)
    (mode : UInt32) (flags : Int32) (clock : Clock) : Fs FileAttr := do
  let accmode := flags &&& O_ACCMODE
  Fs.ensure (accmode = O_RDONLY ∨ accmode = O_WRONLY ∨ accmode = O_RDWR) .InvalidArgument
  into (dbfs_common_create parent name uid gid clock.ctime.spec mode.toUInt16 none none)

def dbfs_fuse_mkdir [Features] (uid gid : UInt32) (parent : UInt64) (name : String)
    (mode : UInt32) (clock : Clock) : Fs FileAttr :=
  into (dbfs_common_create parent name uid gid clock.ctime.spec
    (mode.toUInt16 ||| DbfsPermission.S_IFDIR) none none)

def dbfs_fuse_mknod [Features] (uid gid : UInt32) (parent : UInt64) (name : String)
    (mode dev : UInt32) (clock : Clock) : Fs DbfsAttr :=
  dbfs_common_create parent name uid gid clock.ctime.spec mode.toUInt16 none (some dev)

def dbfs_fuse_rmdir (uid gid : UInt32) (parent : UInt64) (name : String) (clock : Clock) :
    Fs Unit := dbfs_common_rmdir uid gid parent name clock.ctime.spec

def dbfs_fuse_fallocate [Features] (uid gid : UInt32) (ino offset size : UInt64) (mode : UInt32)
    (clock : Clock) : Fs Unit :=
  dbfs_common_fallocate uid gid ino offset.toNat size.toNat mode clock.ctime.spec

def dbfs_fuse_rename (uid gid : UInt32) (parent : UInt64) (name : String) (newparent : UInt64)
    (newname : String) (flags : UInt32) (clock : Clock) : Fs Unit :=
  dbfs_common_rename uid gid parent name newparent newname flags clock.ctime.spec

def dbfs_fuse_link (uid gid : UInt32) (ino newparent : UInt64) (newname : String)
    (clock : Clock) : Fs DbfsAttr := do
  Fs.ensure (newname.utf8ByteSize ≤ MAX_PATH_LEN) .NameTooLong
  dbfs_common_link uid gid ino newparent newname clock.ctime.spec

def dbfs_fuse_unlink (uid gid : UInt32) (parent : UInt64) (name : String) (clock : Clock) :
    Fs Unit := dbfs_common_unlink uid gid parent name none clock.ctime.spec

/-- `assert!(offset >= 0)`. -/
def not_negative (offset : Int64) : Fs Unit :=
  Fs.unwrap (if 0 ≤ offset then some () else none)

def dbfs_fuse_read [Features] (ino : UInt64) (offset : Int64) (buf : Bytes) :
    Fs (Nat × Bytes) := do
  not_negative offset
  dbfs_common_read ino buf offset.toUInt64.toNat

def dbfs_fuse_write [Features] (ino : UInt64) (offset : Int64) (buf : Bytes)
    (scratch : Scratch) : Fs Nat := do
  not_negative offset
  dbfs_common_write ino buf offset.toUInt64.toNat scratch

/-- The permission check of an open, with the number of its error. -/
def checked_open (uid gid : UInt32) (ino : UInt64) (access_mask : UInt16) :
    Fs (Except Int32 Unit) := fun s =>
  match dbfs_common_open ino uid gid access_mask s with
  | (.Ok _, s') => (.Ok (.ok ()), s')
  | (.Err x, s') => (.Ok (.error x.code), s')
  | (.Panic, s') => (.Panic, s')

def dbfs_fuse_open (uid gid : UInt32) (ino : UInt64) (flags : Int32) : Fs (Except Int32 Unit) :=
  let accmode := flags &&& O_ACCMODE
  if accmode = O_RDONLY then
    if flags &&& O_TRUNC ≠ 0 then pure (.error EACCES)
    -- an open by the exec system call
    else if flags &&& FMODE_EXEC ≠ 0 then checked_open uid gid ino X_OK
    else checked_open uid gid ino R_OK
  else if accmode = O_WRONLY then checked_open uid gid ino W_OK
  else if accmode = O_RDWR then checked_open uid gid ino (R_OK ||| W_OK)
  else pure (.error EINVAL)

def dbfs_fuse_opendir (uid gid : UInt32) (ino : UInt64) (flags : Int32) : Fs Unit :=
  let accmode := flags &&& O_ACCMODE
  if accmode = O_RDONLY then
    if flags &&& O_TRUNC ≠ 0 then Fs.fail .AccessError
    else dbfs_common_open ino uid gid R_OK
  else if accmode = O_WRONLY then dbfs_common_open ino uid gid W_OK
  else if accmode = O_RDWR then dbfs_common_open ino uid gid (R_OK ||| W_OK)
  else Fs.fail .InvalidArgument

def dbfs_fuse_copy_file_range [Features] (ino_in offset_in ino_out offset_out len : UInt64)
    (clock : Clock) (scratch : Scratch) : Fs Nat :=
  dbfs_common_copy_file_range ino_in offset_in.toNat ino_out offset_out.toNat len.toNat
    clock.ctime.spec scratch

/-! ## Answers -/

/-- What the kernel gets back for a request. -/
inductive Answer where
  | entry (attr : FileAttr)
  | attr (attr : FileAttr)
  | created (attr : FileAttr)
  | data (bytes : Bytes)
  | written (size : UInt32)
  | size (size : UInt32)
  | ok
  | opened (flags : UInt32)
  | statfs (blocks bfree bavail : Nat) (files ffree : UInt64) (bsize namelen frsize : UInt32)
  | directory (entries : List DbfsDirEntry)
  | error (code : Int32)
  deriving DecidableEq

/-- The answer to a result; a panic leaves none. -/
def answer {α : Type} (x : Fs α) (ok : α → Answer) (err : DbfsError → Answer) :
    Fs (List Answer) := fun s =>
  match x s with
  | (.Ok a, s') => (.Ok [ok a], s')
  | (.Err e, s') => (.Ok [err e], s')
  | (.Panic, s') => (.Panic, s')

def error_code (e : DbfsError) : Answer := .error e.code

/-- The answers of `setattr` among the others. -/
def ReplyAttr.answer : ReplyAttr → Answer
  | .attr a => .attr a
  | .error x => error_code x

/-- `&buf[..x]`. -/
def filled (x : Fs (Nat × Bytes)) : Fs Bytes := do
  let (x, buf) ← x
  Fs.unwrap (if x ≤ buf.length then some (buf.take x) else none)

end fuse

open fuse

/-! ## Requests -/

/-- What a request meets: who asks, the clock, the memory of the allocator, and when the reply to
a listing is full. -/
structure fuse.Surroundings [Features] where
  uid : UInt32
  gid : UInt32
  clock : Clock
  scratch : Scratch
  memory : Nat → UInt8
  full : file.Reply

/-- `from_raw_parts_mut` over the memory for a read. -/
def fuse.Surroundings.buffer [Features] (e : Surroundings) (size : UInt32) : Bytes :=
  (List.range size.toNat).map e.memory

structure fuse.DbfsFuse where
  direct_io : Bool

namespace fuse.DbfsFuse

variable [Features] (fs : DbfsFuse) (e : Surroundings)

def lookup (parent : UInt64) (name : String) : Fs (List Answer) :=
  answer (dbfs_fuse_lookup parent name) .entry error_code

def getattr (ino : UInt64) : Fs (List Answer) :=
  answer (dbfs_fuse_getattr ino) .attr error_code

def setattr (ino : UInt64) (attrs : Attrs) : Fs (List Answer) := do
  let replies ← fuse.setattr e.uid e.gid ino attrs e.clock
  pure (replies.map ReplyAttr.answer)

def readlink (ino : UInt64) : Fs (List Answer) :=
  answer (dbfs_fuse_readlink ino) .data error_code

def mknod (parent : UInt64) (name : String) (mode rdev : UInt32) : Fs (List Answer) :=
  answer (into (dbfs_fuse_mknod e.uid e.gid parent name mode rdev e.clock)) .entry error_code

/-- Whatever goes wrong is answered with `ENOENT`. -/
def mkdir (parent : UInt64) (name : String) (mode : UInt32) : Fs (List Answer) :=
  answer (dbfs_fuse_mkdir e.uid e.gid parent name mode e.clock) .entry fun _ => .error ENOENT

def unlink (parent : UInt64) (name : String) : Fs (List Answer) :=
  answer (dbfs_fuse_unlink e.uid e.gid parent name e.clock) (fun _ => .ok) error_code

def rmdir (parent : UInt64) (name : String) : Fs (List Answer) :=
  answer (dbfs_fuse_rmdir e.uid e.gid parent name e.clock) (fun _ => .ok) error_code

def symlink (parent : UInt64) (name link : String) : Fs (List Answer) :=
  answer (into (dbfs_fuse_symlink e.uid e.gid parent name link e.clock.ctime.spec)) .entry
    error_code

def rename (parent : UInt64) (name : String) (newparent : UInt64) (newname : String)
    (flags : UInt32) : Fs (List Answer) :=
  answer (dbfs_fuse_rename e.uid e.gid parent name newparent newname flags e.clock)
    (fun _ => .ok) error_code

def link (ino newparent : UInt64) (newname : String) : Fs (List Answer) :=
  answer (into (dbfs_fuse_link e.uid e.gid ino newparent newname e.clock)) .entry error_code

def open_flags : UInt32 := if fs.direct_io then FOPEN_DIRECT_IO else 0

def open_file (ino : UInt64) (flags : Int32) : Fs (List Answer) := do
  match ← dbfs_fuse_open e.uid e.gid ino flags with
  | .ok _ => pure [.opened fs.open_flags]
  | .error code => pure [.error code]

def read (ino : UInt64) (offset : Int64) (size : UInt32) : Fs (List Answer) :=
  answer (filled (dbfs_fuse_read ino offset (e.buffer size))) .data fun _ => .error ENOENT

def write (ino : UInt64) (offset : Int64) (data : Bytes) : Fs (List Answer) :=
  answer (dbfs_fuse_write ino offset data e.scratch) (fun x => .written (UInt32.ofNat x))
    fun _ => .error ENOENT

def opendir (ino : UInt64) (flags : Int32) : Fs (List Answer) :=
  answer (dbfs_fuse_opendir e.uid e.gid ino flags) (fun _ => .opened fs.open_flags) error_code

/-- The answer to a listing that ran into an error is `ENOENT`. -/
def listed (x : Fs (Option (List DbfsDirEntry))) : Fs (List Answer) := do
  match ← x with
  | some entries => pure [.directory entries]
  | none => pure [.error ENOENT]

def readdir (ino : UInt64) (offset : Int64) : Fs (List Answer) :=
  listed (dbfs_fuse_readdir ino offset.toInt e.full)

def readdirplus (ino : UInt64) (offset : Int64) : Fs (List Answer) :=
  listed (dbfs_fuse_readdirplus ino offset.toInt e.full)

def releasedir (ino : UInt64) : Fs (List Answer) := do
  dbfs_fuse_releasedir ino
  pure [.ok]

def statfs : Fs (List Answer) :=
  answer dbfs_fuse_statfs
    (fun stat => .statfs stat.f_blocks stat.f_bfree stat.f_bavail stat.f_files stat.f_ffree
      stat.f_bsize.toUInt32 stat.f_namemax.toUInt32 stat.f_frsize.toUInt32)
    fun _ => .error ENOENT

def setxattr (ino : UInt64) (name : String) (value : Bytes) : Fs (List Answer) :=
  answer (dbfs_fuse_setxattr e.uid e.gid ino name value e.clock) (fun _ => .ok) error_code

/-- A size of 0 asks for the length. -/
def getxattr (ino : UInt64) (name : String) (size : UInt32) : Fs (List Answer) :=
  let res := dbfs_fuse_getxattr e.uid e.gid ino name (List.replicate size.toNat 0)
  if size = 0 then answer res (fun r => .size (UInt32.ofNat r.1)) error_code
  else answer (filled res) .data error_code

/-- The buffer is sent whole, not only the part that was filled. -/
def listxattr (ino : UInt64) (size : UInt32) : Fs (List Answer) :=
  answer (dbfs_fuse_listxattr e.uid e.gid ino (List.replicate size.toNat 0))
    (fun r => if size = 0 then .size (UInt32.ofNat r.1) else .data r.2) error_code

def removexattr (ino : UInt64) (name : String) : Fs (List Answer) :=
  answer (dbfs_fuse_removexattr e.uid e.gid ino name e.clock) (fun _ => .ok) error_code

def access (ino : UInt64) (mask : Int32) : Fs (List Answer) :=
  answer (dbfs_fuse_access e.uid e.gid ino mask)
    (fun may => if may then .ok else .error ENOENT) error_code

def create (parent : UInt64) (name : String) (mode : UInt32) (flags : Int32) :
    Fs (List Answer) :=
  answer (dbfs_fuse_create e.uid e.gid parent name mode flags e.clock) .created error_code

def fallocate (ino : UInt64) (offset length : Int64) (mode : Int32) : Fs (List Answer) :=
  answer (dbfs_fuse_fallocate e.uid e.gid ino offset.toUInt64 length.toUInt64 mode.toUInt32
    e.clock) (fun _ => .ok) error_code

def copy_file_range (ino_in : UInt64) (offset_in : Int64) (ino_out : UInt64)
    (offset_out : Int64) (len : UInt64) : Fs (List Answer) :=
  answer (dbfs_fuse_copy_file_range ino_in offset_in.toUInt64 ino_out offset_out.toUInt64 len
    e.clock e.scratch) (fun x => .written (UInt32.ofNat x)) error_code

end fuse.DbfsFuse

/-- The requests of the kernel. Names are UTF-8; `to_str` panics on others. -/
inductive fuse.Request where
  | lookup (parent : UInt64) (name : String)
  | forget (ino nlookup : UInt64)
  | batch_forget (nodes : List UInt64)
  | getattr (ino : UInt64)
  | setattr (ino : UInt64) (attrs : Attrs)
  | readlink (ino : UInt64)
  | mknod (parent : UInt64) (name : String) (mode rdev : UInt32)
  | mkdir (parent : UInt64) (name : String) (mode : UInt32)
  | unlink (parent : UInt64) (name : String)
  | rmdir (parent : UInt64) (name : String)
  | symlink (parent : UInt64) (name link : String)
  | rename (parent : UInt64) (name : String) (newparent : UInt64) (newname : String)
      (flags : UInt32)
  | link (ino newparent : UInt64) (newname : String)
  | open_file (ino : UInt64) (flags : Int32)
  | read (ino : UInt64) (offset : Int64) (size : UInt32)
  | write (ino : UInt64) (offset : Int64) (data : Bytes)
  | flush (ino : UInt64)
  | release (ino : UInt64)
  | fsync (ino : UInt64)
  | opendir (ino : UInt64) (flags : Int32)
  | readdir (ino : UInt64) (offset : Int64)
  | readdirplus (ino : UInt64) (offset : Int64)
  | releasedir (ino : UInt64)
  | fsyncdir (ino : UInt64)
  | statfs
  | setxattr (ino : UInt64) (name : String) (value : Bytes)
  | getxattr (ino : UInt64) (name : String) (size : UInt32)
  | listxattr (ino : UInt64) (size : UInt32)
  | removexattr (ino : UInt64) (name : String)
  | access (ino : UInt64) (mask : Int32)
  | create (parent : UInt64) (name : String) (mode : UInt32) (flags : Int32)
  | fallocate (ino : UInt64) (offset length : Int64) (mode : Int32)
  | copy_file_range (ino_in : UInt64) (offset_in : Int64) (ino_out : UInt64)
      (offset_out : Int64) (len : UInt64)

/-- The server: the answers to a request, in the order in which they are sent. -/
def fuse.DbfsFuse.serve [Features] (fs : DbfsFuse) (e : Surroundings) :
    Request → Fs (List Answer)
  | .lookup parent name => lookup parent name
  | .forget _ _ => pure []
  | .batch_forget _ => pure []
  | .getattr ino => getattr ino
  | .setattr ino attrs => setattr e ino attrs
  | .readlink ino => readlink ino
  | .mknod parent name mode rdev => mknod e parent name mode rdev
  | .mkdir parent name mode => mkdir e parent name mode
  | .unlink parent name => unlink e parent name
  | .rmdir parent name => rmdir e parent name
  | .symlink parent name link => symlink e parent name link
  | .rename parent name newparent newname flags => rename e parent name newparent newname flags
  | .link ino newparent newname => link e ino newparent newname
  | .open_file ino flags => fs.open_file e ino flags
  | .read ino offset size => read e ino offset size
  | .write ino offset data => write e ino offset data
  | .flush _ => pure [.ok]
  | .release _ => pure [.ok]
  | .fsync _ => pure [.ok]
  | .opendir ino flags => fs.opendir e ino flags
  | .readdir ino offset => readdir e ino offset
  | .readdirplus ino offset => readdirplus e ino offset
  | .releasedir ino => releasedir ino
  | .fsyncdir _ => pure [.ok]
  | .statfs => statfs
  | .setxattr ino name value => setxattr e ino name value
  | .getxattr ino name size => getxattr e ino name size
  | .listxattr ino size => listxattr e ino size
  | .removexattr ino name => removexattr e ino name
  | .access ino mask => access e ino mask
  | .create parent name mode flags => create e parent name mode flags
  | .fallocate ino offset length mode => fallocate e ino offset length mode
  | .copy_file_range ino_in offset_in ino_out offset_out len =>
    copy_file_range e ino_in offset_in ino_out offset_out len

end dbfs2
