-- Mounting and unmounting (fs_type.rs, fuse/mkfs.rs, fuse/mod.rs, fuse/sblk.rs):
-- the super block, the root inode, and the two front ends. The next inode number
-- lives in a static of the process and in `continue_number` of the super block.
import Dbfs2.Inode

namespace dbfs2

open common Tx inode

namespace fs_type

/-- The kinds of inode that the rvfs front end makes. -/
inductive InodeMode where
  | S_FILE
  | S_DIR
  | S_SYMLINK
  deriving DecidableEq, Repr

def permission_from_mode : InodeMode → DbfsPermission
  | .S_FILE => 0o777 ||| DbfsPermission.S_IFREG
  | .S_DIR => 0o777 ||| DbfsPermission.S_IFDIR
  | .S_SYMLINK => 0o777 ||| DbfsPermission.S_IFLNK

/-! ## The root inode -/

/-- What the bucket of a new root inode holds. -/
def root_fields [Features] (uid gid : UInt32) (ctime : DbfsTimeSpec) : List (Bytes × Bytes) :=
  [(Field.mode.key, be_u16 (permission_from_mode .S_DIR)), (Field.hard_links.key, be_u32 2),
    (Field.uid.key, be_u32 uid), (Field.gid.key, be_u32 gid),
    (Field.atime.key, ctime.to_be_bytes), (Field.mtime.key, ctime.to_be_bytes),
    (Field.ctime.key, ctime.to_be_bytes),
    (Field.block_size.key, be_u32 (UInt32.ofNat SLICE_SIZE)), (Field.size.key, be_usize 1),
    (generate_data_key ".", as_bytes "1")]

def new_root_tx [Features] (uid gid : UInt32) (ctime : DbfsTimeSpec) : Tx Nat := do
  create_bucket 1
  puts 1 (root_fields uid gid ctime)
  read_usize 1 .size

/-- Makes the root inode where there is none; only the first number is good for it. The
counter is taken inside the transaction, and stays taken when the transaction is dropped. -/
def dbfs_common_root_inode [Features] (uid gid : UInt32) (ctime : DbfsTimeSpec) : Fs Nat := fun s =>
  if s.db.Has 1 then Fs.write (read_usize 1 .size) s
  else (do
    let old ← fetch_add
    Fs.unwrap (if old = 1 then some () else none)
    Fs.write (new_root_tx uid gid ctime)) s

/-! ## Unmounting -/

def dbfs_common_umount : Fs Unit := fun s =>
  Fs.write (do
    get_super_blk
    sb_put .continue_number (be_usize s.DBFS_INODE_NUMBER.toNat)) s

/-- `get_or_create_bucket("super_blk")`, then the counter is written back. -/
def dbfs_sync_fs : Fs Unit := fun s =>
  Fs.write (fun db => sb_put .continue_number (be_usize s.DBFS_INODE_NUMBER.toNat)
    { db with super_blk := some (db.super_blk.getD ∅) }) s

def dbfs_kill_super_blk : Fs Unit := dbfs_common_umount

def dbfs_fuse_destroy : Fs Unit := dbfs_common_umount

/-! ## Mounting through rvfs -/

/-- `DBFS_INODE_NUMBER.store`. -/
def store_number (n : UInt64) : Fs Unit := fun s => (.Ok (), { s with DBFS_INODE_NUMBER := n })

/-- The part of `dbfs_create_simple_super_blk` that touches the database and the statics: the
counter is restored before the other two fields are read. -/
def dbfs_create_simple_super_blk : Fs (UInt32 × UInt32) := do
  let continue_number ← Fs.read do
    map_err .Other get_super_blk
    sb_usize .continue_number
  store_number (UInt64.ofNat continue_number)
  Fs.read do
    let blk_size ← sb_u32 .blk_size
    let magic ← sb_u32 .magic
    pure (blk_size, magic)

/-- A mount in a process that has no super block of this device yet. -/
def dbfs_get_super_blk [Features] : Fs Nat := do
  let _ ← dbfs_create_simple_super_blk
  dbfs_common_root_inode 0 0 .default

/-! ## Mounting through FUSE -/

def FILE_SIZE : Nat := 1024 * 1024 * 1024 * 20

def new_super_blk [Features] (size : Nat) : Bucket :=
  ((((∅ : Bucket).insert Field.continue_number.key (be_usize 1)).insert Field.magic.key
    (be_u32 1111)).insert Field.blk_size.key (be_u32 (UInt32.ofNat SLICE_SIZE))).insert
    Field.disk_size.key (be_usize size)

/-- Makes the super block where there is none. -/
def init_db [Features] (size : Nat) : Fs Unit := fun s =>
  match s.db.super_blk with
  | some _ => (.Ok (), s)
  | none => (.Ok (), { s with db := { s.db with super_blk := some (new_super_blk size) } })

/-- `DbfsFuse::init`. Unlike the rvfs mount it never reads `continue_number`. -/
def fuse_init [Features] (uid gid : UInt32) (time : DbfsTimeSpec) : Fs Unit := do
  init_db FILE_SIZE
  let _ ← dbfs_common_root_inode uid gid time

/-! ## Processes -/

/-- A process that has just started: its statics have their first values. -/
def start (db : Db) : Sys := ⟨db, 1, ∅⟩

/-- An empty database file. -/
def empty_db : Db := ⟨none, ∅⟩

/-- A new file system: the super block and the root inode. -/
def new_fs [Features] (uid gid : UInt32) (time : DbfsTimeSpec) : Sys :=
  (fuse_init uid gid time (start empty_db)).2

end fs_type

end dbfs2
