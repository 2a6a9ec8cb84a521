-- The inode calls of inode.rs and link.rs: attributes, access checks, and the
-- five calls that change the tree of names (create, link, unlink, rmdir, rename).
-- Each transaction body is a definition of its own, so that a call that runs
-- several of them shows where another call can come in between.
import Dbfs2.Db

namespace dbfs2

open common Tx

def ACCESS_W_OK : UInt16 := 2

def ACCESS_R_OK : UInt16 := 4

def RENAME_EXCHANGE : UInt32 := 0x2

namespace inode

/-! ## Permissions -/

/-- Checks the permission bits `mode` of an inode of owner `p_uid` and group `p_gid`. -/
def checkout_access (p_uid p_gid : UInt32) (mode : UInt16) (uid gid : UInt32)
    (access_mask : UInt16) : Bool :=
  if access_mask = 0 then true
  else
    let permission := mode
    -- root may read and write anything, and execute when one of the x bits is set
    if uid = 0 then
      let access_mask := access_mask &&& 0o1
      let access_mask := access_mask - (access_mask &&& (permission >>> 6))
      let access_mask := access_mask - (access_mask &&& (permission >>> 3))
      let access_mask := access_mask - (access_mask &&& permission)
      access_mask = 0
    else
      let access_mask :=
        if p_uid = uid then access_mask - (access_mask &&& (permission >>> 6))
        else if p_gid = gid then access_mask - (access_mask &&& (permission >>> 3))
        else access_mask - (access_mask &&& permission)
      access_mask = 0

/-- The sticky bit test that unlink, rmdir and rename spell out: in a directory with
`S_ISVTX`, only root, its owner or the owner of the entry's inode may take an entry away. -/
def sticky_ok (p_perm : DbfsPermission) (r_uid p_uid uid : UInt32) : Bool :=
  !(p_perm.contains DbfsPermission.S_ISVTX && r_uid != 0 && r_uid != p_uid && r_uid != uid)

def creation_gid (p_gid : UInt32) (p_mode : DbfsPermission) (gid : UInt32) : UInt32 :=
  if p_mode.contains DbfsPermission.S_ISGID then p_gid else gid

/-! ## Attributes -/

def attr_tx (number : UInt64) : Tx DbfsAttr := do
  get_bucket number
  let size ← read_usize number .size
  let mode ← read_u16 number .mode
  let file_type ← unwrap (DbfsFileType.from mode)
  let n_links ← read_u32 number .hard_links
  let uid ← read_u32 number .uid
  let gid ← read_u32 number .gid
  let blksize ← read_u32 number .block_size
  let blocks ← add_usize size blksize.toNat
  let blocks ← sub_usize blocks 1
  assert (blksize != 0)
  let blocks := blocks / blksize.toNat
  let atime ← read_time number .atime
  let mtime ← read_time number .mtime
  let ctime ← read_time number .ctime
  let rdev ←
    if file_type = .CharDevice ∨ file_type = .BlockDevice then read_u32 number .dev else pure 0
  pure
    { ino := number, size, blocks, atime, mtime, ctime, crtime := .default, kind := file_type,
      perm := mode, nlink := n_links, uid, gid, rdev, blksize, padding := 0, flags := 0 }

def dbfs_common_attr (number : UInt64) : Fs DbfsAttr := Fs.read (attr_tx number)

def dbfs_common_lookup (dir : UInt64) (name : String) : Fs DbfsAttr := do
  let number ← Fs.read do
    get_bucket dir
    match ← get_kv dir (generate_data_key name) with
    | none => fail .NotFound
    | some value => unwrap (parse_ino value)
  dbfs_common_attr number

/-- The requester is `p_uid`, `p_gid` here, and the owner `uid`, `gid`; they are handed to the
check in that order. -/
def dbfs_common_access (p_uid p_gid : UInt32) (ino : UInt64) (mask : Int32) : Fs Bool :=
  Fs.read do
    get_bucket ino
    let mode ← read_u16 ino .mode
    let uid ← read_u32 ino .uid
    let gid ← read_u32 ino .gid
    pure (checkout_access p_uid p_gid mode uid gid mask.toUInt32.toUInt16)

/-! ## Link -/

def link_tx (ino new_ino : UInt64) (name : String) (ctime : DbfsTimeSpec) : Tx Unit := do
  get_bucket new_ino
  put new_ino (generate_data_key name) (ino_bytes ino)
  let size ← read_usize new_ino .size
  let size ← add_usize size 1
  put new_ino Field.size.key (be_usize size)
  put new_ino Field.ctime.key ctime.to_be_bytes
  put new_ino Field.mtime.key ctime.to_be_bytes
  get_bucket ino
  let hard_links ← read_u32 ino .hard_links
  let hard_links ← add_u32 hard_links 1
  put ino Field.hard_links.key (be_u32 hard_links)
  put ino Field.ctime.key ctime.to_be_bytes

def dbfs_common_link (uid gid : UInt32) (ino new_ino : UInt64) (name : String)
    (ctime : DbfsTimeSpec) : Fs DbfsAttr := do
  let attr ← Fs.map_err .NotFound (dbfs_common_attr new_ino)
  Fs.ensure (checkout_access attr.uid attr.gid (attr.perm &&& 0o777) uid gid 2) .AccessError
  Fs.write (link_tx ino new_ino name ctime)
  Fs.map_err .NotFound (dbfs_common_attr ino)

/-! ## Create -/

/-- `DBFS_INODE_NUMBER.fetch_add(1)`: an atomic counter wraps around. -/
def fetch_add : Fs UInt64 := fun s =>
  (.Ok s.DBFS_INODE_NUMBER, { s with DBFS_INODE_NUMBER := s.DBFS_INODE_NUMBER + 1 })

/-- The mode that a new inode gets. -/
def new_mode (uid : UInt32) (p_mode permission : DbfsPermission) : DbfsPermission :=
  let mode :=
    if uid != 0 then
      (permission.remove DbfsPermission.S_ISUID).remove DbfsPermission.S_ISGID
    else permission
  if permission.contains DbfsPermission.S_IFDIR && p_mode.contains DbfsPermission.S_IFDIR then
    mode ||| DbfsPermission.S_ISGID
  else mode

/-- The link count, the size and the device of a new inode; `none` is the failed assertion
on the target of a symbolic link. -/
def new_counts (permission : DbfsPermission) (target_path : Option String)
    (dev : Option UInt32) : Option (UInt32 × Nat × Option UInt32) :=
  if permission.contains DbfsPermission.S_IFSOCK || permission.contains DbfsPermission.S_IFCHR
      || permission.contains DbfsPermission.S_IFBLK
      || permission.contains DbfsPermission.S_IFIFO then some (1, 0, dev)
  else if permission.contains DbfsPermission.S_IFDIR then some (2, 2, none)
  else if permission.contains DbfsPermission.S_IFLNK then
    target_path.map fun target => (1, target.utf8ByteSize, none)
  else some (1, 0, none)

/-- The `.` and `..` entries of a new inode. The test is for the bit of `S_IFDIR`, which
`S_IFSOCK` and `S_IFBLK` have too. -/
def new_dots (permission : DbfsPermission) (new_number dir : UInt64) : List (Bytes × Bytes) :=
  if permission.contains DbfsPermission.S_IFDIR then
    [(generate_data_key ".", ino_bytes new_number), (generate_data_key "..", ino_bytes dir)]
  else []

/-- The target that a new symbolic link holds. -/
def new_target (permission : DbfsPermission) (target_path : Option String) :
    Option (List (Bytes × Bytes)) :=
  if permission.contains DbfsPermission.S_IFLNK then
    target_path.map fun target => [(Field.data.key, as_bytes target)]
  else some []

/-- The bucket of a new inode. -/
def new_inode_tx [Features] (new_number dir : UInt64) (uid gid : UInt32) (c_time : DbfsTimeSpec)
    (mode permission : DbfsPermission) (target_path : Option String) (dev : Option UInt32) :
    Tx (UInt32 × Nat × Option UInt32) := do
  create_bucket new_number
  put new_number Field.mode.key (be_u16 mode)
  let (hard_link, file_size, dev) ← unwrap (new_counts permission target_path dev)
  puts new_number (new_dots permission new_number dir)
  puts new_number
    [(Field.size.key, be_usize file_size), (Field.hard_links.key, be_u32 hard_link),
      (Field.uid.key, be_u32 uid), (Field.gid.key, be_u32 gid),
      (Field.atime.key, c_time.to_be_bytes), (Field.mtime.key, c_time.to_be_bytes),
      (Field.ctime.key, c_time.to_be_bytes),
      (Field.block_size.key, be_u32 (UInt32.ofNat SLICE_SIZE))]
  let target ← unwrap (new_target permission target_path)
  puts new_number target
  puts new_number (dev.toList.map fun d => (Field.dev.key, be_u32 d))
  pure (hard_link, file_size, dev)

def create_tx [Features] (new_number dir : UInt64) (name : String) (uid gid : UInt32)
    (c_time : DbfsTimeSpec) (permission : DbfsPermission) (target_path : Option String)
    (dev : Option UInt32) : Tx (UInt32 × DbfsPermission × UInt32 × Nat × Option UInt32) := do
  get_bucket dir
  let p_uid ← read_u32 dir .uid
  let p_gid ← read_u32 dir .gid
  let p_mode ← read_u16 dir .mode
  ensure (checkout_access p_uid p_gid (p_mode &&& 0o777) uid gid 0o2) .AccessError
  let size ← read_usize dir .size
  let size ← add_usize size 1
  put dir Field.size.key (be_usize size)
  put dir (generate_data_key name) (ino_bytes new_number)
  put dir Field.ctime.key c_time.to_be_bytes
  put dir Field.mtime.key c_time.to_be_bytes
  let mode := new_mode uid p_mode permission
  let gid := creation_gid p_gid permission gid
  let counts ← new_inode_tx new_number dir uid gid c_time mode permission target_path dev
  pure (gid, mode, counts)

def dbfs_common_create [Features] (dir : UInt64) (name : String) (uid gid : UInt32)
    (c_time : DbfsTimeSpec) (permission : DbfsPermission) (target_path : Option String)
    (dev : Option UInt32) : Fs DbfsAttr := do
  let new_number ← fetch_add
  let (gid, mode, hard_link, file_size, dev) ←
    Fs.write (create_tx new_number dir name uid gid c_time permission target_path dev)
  let kind ← Fs.unwrap (DbfsFileType.from permission)
  pure
    { ino := new_number, size := file_size, blocks := 0, atime := c_time, mtime := c_time,
      ctime := c_time, crtime := .default, kind, perm := mode, nlink := hard_link, uid, gid,
      rdev := dev.getD 0, blksize := 512, padding := 0, flags := 0 }

/-! ## Unlink and rmdir -/

def unlink_tx (uid gid : UInt32) (dir : UInt64) (name : String) (ino : Option UInt64)
    (c_time : DbfsTimeSpec) : Tx Unit := do
  get_bucket dir
  let kv ← get_kv dir (generate_data_key name)
  let value ← unwrap kv
  let p_uid ← read_u32 dir .uid
  let p_gid ← read_u32 dir .gid
  let p_perm ← read_u16 dir .mode
  ensure (checkout_access p_uid p_gid (p_perm &&& 0o777) uid gid ACCESS_W_OK) .AccessError
  let ino ← match ino with
    | some ino => do
      get_bucket ino
      pure ino
    | none => do
      let ino ← unwrap (parse_ino value)
      map_err .NotFound (get_bucket ino)
      pure ino
  let ino_uid ← read_u32 ino .uid
  ensure (sticky_ok p_perm uid p_uid ino_uid) .AccessError
  delete dir (generate_data_key name)
  let size ← read_usize dir .size
  let size ← sub_usize size 1
  put dir Field.size.key (be_usize size)
  put dir Field.ctime.key c_time.to_be_bytes
  put dir Field.mtime.key c_time.to_be_bytes
  let h_link ← read_u32 ino .hard_links
  if h_link = 1 then delete_bucket ino
  else do
    let h_link ← sub_u32 h_link 1
    put ino Field.hard_links.key (be_u32 h_link)
    put ino Field.ctime.key c_time.to_be_bytes

def dbfs_common_unlink (uid gid : UInt32) (dir : UInt64) (name : String) (ino : Option UInt64)
    (c_time : DbfsTimeSpec) : Fs Unit :=
  Fs.write (unlink_tx uid gid dir name ino c_time)

def rmdir_tx (r_uid r_gid : UInt32) (p_ino : UInt64) (name : String) (c_time : DbfsTimeSpec) :
    Tx Unit := do
  get_bucket p_ino
  let kv ← get_kv p_ino (generate_data_key name)
  let value ← unwrap kv
  let number ← unwrap (parse_ino value)
  unwrap_ok (get_bucket number)
  -- a directory always has its own entry and its parent's
  let size ← read_usize number .size
  ensure (size ≤ 2) .NotEmpty
  let p_uid ← read_u32 p_ino .uid
  let p_gid ← read_u32 p_ino .gid
  let p_mode ← read_u16 p_ino .mode
  let p_size ← read_usize p_ino .size
  ensure (checkout_access p_uid p_gid (p_mode &&& 0o777) r_uid r_gid ACCESS_W_OK) .AccessError
  let uid ← read_u32 number .uid
  ensure (sticky_ok p_mode r_uid p_uid uid) .AccessError
  put p_ino Field.mtime.key c_time.to_be_bytes
  put p_ino Field.ctime.key c_time.to_be_bytes
  delete p_ino (generate_data_key name)
  let p_size ← sub_usize p_size 1
  put p_ino Field.size.key (be_usize p_size)
  delete_bucket number

def dbfs_common_rmdir (r_uid r_gid : UInt32) (p_ino : UInt64) (name : String)
    (c_time : DbfsTimeSpec) : Fs Unit :=
  Fs.write (rmdir_tx r_uid r_gid p_ino name c_time)

/-! ## Rename -/

/-- What rename reads about the entry it moves. -/
structure RenameOld where
  number : UInt64
  uid : UInt32
  gid : UInt32
  perm : DbfsPermission
  deriving DecidableEq, Repr

/-- What rename reads about the entry it replaces: only a directory with the sticky bit
lets it see one. -/
structure RenameNew where
  number : Option UInt64
  perm : DbfsPermission
  size : Nat
  deriving DecidableEq, Repr

def rename_old_tx (r_uid r_gid : UInt32) (old_dir : UInt64) (old_name : String) :
    Tx RenameOld := do
  get_bucket old_dir
  match ← get_kv old_dir (generate_data_key old_name) with
  | none => fail .NotFound
  | some value =>
    let old_dir_uid ← read_u32 old_dir .uid
    let old_dir_gid ← read_u32 old_dir .gid
    let old_dir_perm ← read_u16 old_dir .mode
    ensure (checkout_access old_dir_uid old_dir_gid (old_dir_perm &&& 0o777) r_uid r_gid
      ACCESS_W_OK) .AccessError
    let number ← unwrap (parse_ino value)
    unwrap_ok (get_bucket number)
    let old_uid ← read_u32 number .uid
    ensure (sticky_ok old_dir_perm r_uid old_dir_uid old_uid) .AccessError
    let old_gid ← read_u32 number .gid
    let old_perm ← read_u16 number .mode
    pure ⟨number, old_uid, old_gid, old_perm⟩

def rename_new_tx (r_uid r_gid : UInt32) (new_dir : UInt64) (new_name : String) :
    Tx RenameNew := do
  get_bucket new_dir
  let new_dir_uid ← read_u32 new_dir .uid
  let new_dir_gid ← read_u32 new_dir .gid
  let new_dir_perm ← read_u16 new_dir .mode
  ensure (checkout_access new_dir_uid new_dir_gid (new_dir_perm &&& 0o777) r_uid r_gid
    ACCESS_W_OK) .AccessError
  let value ← get_kv new_dir (generate_data_key new_name)
  match (if DbfsPermission.contains new_dir_perm DbfsPermission.S_ISVTX then value else none) with
  | none => pure ⟨none, 0, 0⟩
  | some value =>
    let number ← unwrap (parse_ino value)
    unwrap_ok (get_bucket number)
    let new_uid ← read_u32 number .uid
    ensure (!(r_uid != 0 && r_uid != new_dir_uid && r_uid != new_uid)) .AccessError
    let new_perm ← read_u16 number .mode
    let new_size ← read_usize number .size
    pure ⟨some number, new_perm, new_size⟩

/-- The atomic exchange of two entries. -/
def rename_exchange_tx (old_dir : UInt64) (old_name : String) (new_dir : UInt64)
    (new_name : String) (old : RenameOld) (new_number : UInt64) (new_perm : DbfsPermission)
    (ctime : DbfsTimeSpec) : Tx Unit := do
  get_bucket old_dir
  get_bucket new_dir
  put new_dir (generate_data_key new_name) (ino_bytes old.number)
  put old_dir (generate_data_key old_name) (ino_bytes new_number)
  put old_dir Field.ctime.key ctime.to_be_bytes
  put old_dir Field.mtime.key ctime.to_be_bytes
  put new_dir Field.ctime.key ctime.to_be_bytes
  put new_dir Field.mtime.key ctime.to_be_bytes
  get_bucket old.number
  put old.number Field.ctime.key ctime.to_be_bytes
  get_bucket new_number
  put new_number Field.ctime.key ctime.to_be_bytes
  -- the first of the two puts goes to "." where the second goes to ".."
  put_if (old.perm.contains DbfsPermission.S_IFDIR) old.number (generate_data_key ".")
    (ino_bytes new_dir)
  put_if (new_perm.contains DbfsPermission.S_IFDIR) new_number (generate_data_key "..")
    (ino_bytes old_dir)

/-- Takes the entry that is replaced out of the new directory. The link count has four
bytes and is read here as eight, so a target that is no directory panics. -/
def rename_replace_tx (new_dir : UInt64) (new_name : String) (number : UInt64)
    (new_perm : DbfsPermission) (new_dir_size : Nat) (ctime : DbfsTimeSpec) : Tx Nat := do
  delete new_dir (generate_data_key new_name)
  let new_dir_size ← sub_usize new_dir_size 1
  if new_perm.contains DbfsPermission.S_IFDIR then delete_bucket number
  else do
    get_bucket number
    let hardlink ← read_usize number .hard_links
    let hardlink ← sub_usize hardlink 1
    if hardlink = 0 then delete_bucket number
    else do
      put number Field.hard_links.key (be_usize hardlink)
      put number Field.ctime.key ctime.to_be_bytes
  pure new_dir_size

/-- The size of the new directory: a move inside one directory leaves it. -/
def rename_size (old_dir new_dir : UInt64) (new_dir_size : Nat) : Tx Nat :=
  if old_dir = new_dir then pure new_dir_size else add_usize new_dir_size 1

def rename_move_tx (old_dir : UInt64) (old_name : String) (new_dir : UInt64) (new_name : String)
    (old : RenameOld) (new : RenameNew) (ctime : DbfsTimeSpec) : Tx Unit := do
  get_bucket old_dir
  get_bucket new_dir
  let new_dir_size ← read_usize new_dir .size
  let new_dir_size ← match new.number with
    | some number => rename_replace_tx new_dir new_name number new.perm new_dir_size ctime
    | none => pure new_dir_size
  delete old_dir (generate_data_key old_name)
  let old_dir_size ← read_usize old_dir .size
  let old_dir_size ← sub_usize old_dir_size 1
  put old_dir Field.size.key (be_usize old_dir_size)
  put new_dir (generate_data_key new_name) (ino_bytes old.number)
  let new_dir_size ← rename_size old_dir new_dir new_dir_size
  put new_dir Field.size.key (be_usize new_dir_size)
  put old_dir Field.ctime.key ctime.to_be_bytes
  put old_dir Field.mtime.key ctime.to_be_bytes
  put new_dir Field.ctime.key ctime.to_be_bytes
  put new_dir Field.mtime.key ctime.to_be_bytes
  get_bucket old.number
  put old.number Field.ctime.key ctime.to_be_bytes
  put_if (old.perm.contains DbfsPermission.S_IFDIR) old.number (generate_data_key "..")
    (ino_bytes new_dir)

def dbfs_common_rename (r_uid r_gid : UInt32) (old_dir : UInt64) (old_name : String)
    (new_dir : UInt64) (new_name : String) (flags : UInt32) (ctime : DbfsTimeSpec) :
    Fs Unit := do
  let old ← Fs.read (rename_old_tx r_uid r_gid old_dir old_name)
  let new ← Fs.read (rename_new_tx r_uid r_gid new_dir new_name)
  if flags &&& RENAME_EXCHANGE ≠ 0 then
    match new.number with
    | none => Fs.fail .NotFound
    | some new_number =>
      Fs.write (rename_exchange_tx old_dir old_name new_dir new_name old new_number new.perm ctime)
  else do
    -- only an empty directory is replaced
    Fs.ensure (!(new.number.isSome && new.perm.contains DbfsPermission.S_IFDIR
      && decide (2 < new.size))) .NotEmpty
    -- a directory that gets a new parent changes its own bucket
    Fs.ensure (!(old.perm.contains DbfsPermission.S_IFDIR && old_dir != new_dir
      && !checkout_access old.uid old.gid (old.perm &&& 0o777) r_uid r_gid ACCESS_W_OK))
      .AccessError
    Fs.write (rename_move_tx old_dir old_name new_dir new_name old new ctime)

/-! ## The naming calls as data -/

/-- The five calls that change the tree of names, with their arguments. -/
inductive NameCall where
  | create (dir : UInt64) (name : String) (c_time : DbfsTimeSpec) (permission : DbfsPermission)
      (target_path : Option String) (dev : Option UInt32)
  | link (ino new_ino : UInt64) (name : String) (ctime : DbfsTimeSpec)
  | unlink (dir : UInt64) (name : String) (c_time : DbfsTimeSpec)
  | rmdir (p_ino : UInt64) (name : String) (c_time : DbfsTimeSpec)
  | rename (old_dir : UInt64) (old_name : String) (new_dir : UInt64) (new_name : String)
      (flags : UInt32) (ctime : DbfsTimeSpec)
  deriving DecidableEq, Repr

/-- The call of a requester. -/
def NameCall.run [Features] (uid gid : UInt32) : NameCall → Fs Unit
  | create dir name c_time permission target_path dev => do
    let _ ← dbfs_common_create dir name uid gid c_time permission target_path dev
  | link ino new_ino name ctime => do
    let _ ← dbfs_common_link uid gid ino new_ino name ctime
  | unlink dir name c_time => dbfs_common_unlink uid gid dir name none c_time
  | rmdir p_ino name c_time => dbfs_common_rmdir uid gid p_ino name c_time
  | rename old_dir old_name new_dir new_name flags ctime =>
    dbfs_common_rename uid gid old_dir old_name new_dir new_name flags ctime

end inode

end dbfs2
