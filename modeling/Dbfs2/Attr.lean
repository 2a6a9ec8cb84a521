-- Extended attributes, modes, owners and times of an inode (attr.rs). An extended
-- attribute stands under its own name in the inode bucket, beside the fields, the
-- entries and the slices.
import Dbfs2.File

namespace dbfs2.attr

open common Tx inode

/-! ## Extended attributes -/

inductive XattrNamespace where
  | Security
  | System
  | Trusted
  | User
  deriving DecidableEq, Repr

/-- `key.starts_with(pat)`. -/
def starts_with (key : Bytes) (pat : String) : Bool := (as_bytes pat).isPrefixOf key

def parse_xattr_namespace (key : String) : DbfsResult XattrNamespace :=
  if starts_with (as_bytes key) "user." then .Ok .User
  else if starts_with (as_bytes key) "system." then .Ok .System
  else if starts_with (as_bytes key) "trusted." then .Ok .Trusted
  else if starts_with (as_bytes key) "security." then .Ok .Security
  else .Err .NotSupported

/-- `if !c { return Err(PermissionDenied) }`. -/
def permit (c : Bool) : DbfsResult Unit := if c then .Ok () else .Err .PermissionDenied

def xattr_access_check (key : String) (access_mask : UInt16) (r_uid r_gid uid gid : UInt32)
    (mode : UInt16) : DbfsResult Unit := do
  match ← parse_xattr_namespace key with
  | .Security => permit (access_mask == ACCESS_R_OK || r_uid == 0)
  | .Trusted => permit (r_uid == 0)
  | .System =>
    if key = "system.posix_acl_access" then
      permit (checkout_access uid gid mode r_uid r_gid access_mask)
    else permit (r_uid == 0)
  | .User => permit (checkout_access uid gid mode r_uid r_gid access_mask)

/-- How setxattr, getxattr and removexattr begin: the bucket, and the check on its stored owner,
group and mode. -/
def xattr_check_tx (r_uid r_gid : UInt32) (ino : UInt64) (key : String) (access_mask : UInt16) :
    Tx Unit := do
  get_bucket ino
  let uid ← read_u32 ino .uid
  let gid ← read_u32 ino .gid
  let mode ← read_u16 ino .mode
  check (xattr_access_check key access_mask r_uid r_gid uid gid (mode &&& 0o777))

/-- Setting asks for read access. -/
def setxattr_tx (r_uid r_gid : UInt32) (ino : UInt64) (key : String) (value : Bytes)
    (ctime : DbfsTimeSpec) : Tx Unit := do
  xattr_check_tx r_uid r_gid ino key ACCESS_R_OK
  put ino (as_bytes key) value
  put ino Field.ctime.key ctime.to_be_bytes

def dbfs_common_setxattr (r_uid r_gid : UInt32) (ino : UInt64) (key : String) (value : Bytes)
    (ctime : DbfsTimeSpec) : Fs Unit := Fs.write (setxattr_tx r_uid r_gid ino key value ctime)

/-- The length of the value and the buffer. An empty buffer asks for the length only. -/
def getxattr_tx (r_uid r_gid : UInt32) (ino : UInt64) (key : String) (buf : Bytes) :
    Tx (Nat × Bytes) := do
  xattr_check_tx r_uid r_gid ino key ACCESS_R_OK
  match ← get_kv ino (as_bytes key) with
  | none => fail .NoData
  | some value =>
    if buf.length = 0 then pure (value.length, buf)
    else if buf.length < value.length then fail .RangeError
    else pure (value.length, Slices.overlay buf 0 value)

def dbfs_common_getxattr (r_uid r_gid : UInt32) (ino : UInt64) (key : String) (buf : Bytes) :
    Fs (Nat × Bytes) := Fs.read (getxattr_tx r_uid r_gid ino key buf)

/-- Removing asks for write access. -/
def removexattr_tx (r_uid r_gid : UInt32) (ino : UInt64) (key : String) (ctime : DbfsTimeSpec) :
    Tx Unit := do
  xattr_check_tx r_uid r_gid ino key ACCESS_W_OK
  delete ino (as_bytes key)
  put ino Field.ctime.key ctime.to_be_bytes

/-- The transaction is never committed. -/
def dbfs_common_removexattr (r_uid r_gid : UInt32) (ino : UInt64) (key : String)
    (ctime : DbfsTimeSpec) : Fs Unit := Fs.dropped (removexattr_tx r_uid r_gid ino key ctime)

/-! ## Mode, owner and times -/

/-- The mode that chmod stores: the type stays, and the set-id and sticky bits go. -/
def chmod_mode (perm mode : UInt16) : DbfsPermission :=
  (perm &&& 0o170000) ||| (mode &&& 0o777)

def chmod_tx (ino : UInt64) (i_mode : DbfsPermission) (ctime : DbfsTimeSpec) : Tx Unit := do
  get_bucket ino
  put ino Field.mode.key (be_u16 i_mode)
  put ino Field.ctime.key ctime.to_be_bytes

def dbfs_common_chmod (r_uid r_gid : UInt32) (ino : UInt64) (mode : UInt16)
    (ctime : DbfsTimeSpec) : Fs DbfsAttr := do
  let attr ← Fs.map_err .Other (dbfs_common_attr ino)
  Fs.ensure (r_uid == 0 || r_uid == attr.uid) .PermissionDenied
  Fs.ensure (r_uid == 0 || r_gid == attr.gid) .PermissionDenied
  let i_mode := chmod_mode attr.perm mode
  if i_mode ≠ attr.perm then do
    Fs.write (chmod_tx ino i_mode ctime)
    pure { attr with perm := i_mode, ctime }
  else pure attr

/-- The mode that chown stores. -/
def chown_mode (perm : DbfsPermission) (uid gid : Option UInt32) : DbfsPermission :=
  let perm :=
    if perm.contains DbfsPermission.S_IXUSR || perm.contains DbfsPermission.S_IXGRP
        || perm.contains DbfsPermission.S_IXOTH then clear_suid_sgid perm
    else perm
  let perm := if uid.isSome then perm.remove DbfsPermission.S_ISUID else perm
  if gid.isSome then perm.remove DbfsPermission.S_ISGID else perm

def chown_tx (ino : UInt64) (uid gid : UInt32) (perm : DbfsPermission) (c_time : DbfsTimeSpec) :
    Tx Unit := do
  get_bucket ino
  put ino Field.uid.key (be_u32 uid)
  put ino Field.gid.key (be_u32 gid)
  put ino Field.mode.key (be_u16 perm)
  put ino Field.ctime.key c_time.to_be_bytes

def dbfs_common_chown (r_uid r_gid : UInt32) (ino : UInt64) (uid gid : Option UInt32)
    (c_time : DbfsTimeSpec) : Fs DbfsAttr := do
  let attr ← Fs.map_err .Other (dbfs_common_attr ino)
  -- only root gives a file to a group of others
  Fs.ensure (gid.all fun gid => r_uid == 0 || r_gid == gid) .PermissionDenied
  -- only root gives a file away; the owner may name the owner
  Fs.ensure (uid.all fun uid => r_uid == 0 || (uid == attr.uid && r_uid == attr.uid))
    .PermissionDenied
  Fs.ensure (!(gid.isSome && r_uid != 0 && r_uid != attr.uid)) .PermissionDenied
  let perm := chown_mode attr.perm uid gid
  let uid := uid.getD attr.uid
  let gid := gid.getD attr.gid
  Fs.write (chown_tx ino uid gid perm c_time)
  pure { attr with uid, gid, perm, ctime := c_time }

def utimens_tx (ino : UInt64) (atime mtime : Option DbfsTimeSpec) (c_time : DbfsTimeSpec) :
    Tx Unit := do
  get_bucket ino
  puts ino (atime.toList.map fun t => (Field.atime.key, t.to_be_bytes))
  puts ino (mtime.toList.map fun t => (Field.mtime.key, t.to_be_bytes))
  put ino Field.ctime.key c_time.to_be_bytes

def dbfs_common_utimens (r_uid r_gid : UInt32) (ino : UInt64) (atime mtime : Option DbfsTimeSpec)
    (c_time : DbfsTimeSpec) : Fs DbfsAttr := do
  let attr ← dbfs_common_attr ino
  Fs.ensure (!(attr.uid != r_uid && attr.uid != 0)) .PermissionDenied
  Fs.ensure (!(attr.uid != r_uid
    && !checkout_access attr.uid attr.gid (attr.perm &&& 0o777) r_uid r_gid ACCESS_W_OK))
    .AccessError
  Fs.write (utimens_tx ino atime mtime c_time)
  pure { attr with atime := atime.getD attr.atime, mtime := mtime.getD attr.mtime, ctime := c_time }

end dbfs2.attr
