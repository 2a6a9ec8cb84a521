-- The hooks of the rvfs front end (inode.rs). Most of them run a common function as
-- root and then bring the inodes in memory up to date; rename and the attributes have
-- transactions of their own.
import Dbfs2.FsType
import Dbfs2.File

namespace dbfs2

open common Tx inode fs_type

abbrev StrResult (α : Type) := Except String α

namespace Fs

variable {α β : Type}

/-- `x.map_err(|_| msg)?`, and what comes after it. -/
def or_str (msg : String) (x : Fs α) (g : α → Fs (StrResult β)) : Fs (StrResult β) := fun s =>
  match x s with
  | (.Ok a, s') => g a s'
  | (.Err _, s') => (.Ok (.error msg), s')
  | (.Panic, s') => (.Panic, s')

/-- What comes after the call looks at the result only. -/
theorem or_str_state {msg : String} {x : Fs α} {g : α → Fs (StrResult β)}
    (hg : ∀ a s, (g a s).2 = s) (s : Sys) : (or_str msg x g s).2 = (x s).2 := by
  unfold or_str
  rcases x s with ⟨a | e | _, s'⟩
  · exact hg a s'
  · rfl
  · rfl

theorem unwrap_bind_state {x : Option α} {g : α → Fs β} (hg : ∀ a s, (g a s).2 = s) (s : Sys) :
    ((Fs.unwrap x >>= g) s).2 = s := by
  cases x with
  | none => rfl
  | some a => exact hg a s

end Fs

namespace inode

/-- What the hooks use of an inode in memory. -/
structure Inode where
  number : UInt64
  file_size : Nat
  hard_links : UInt32
  deriving DecidableEq, Repr

namespace Inode

/-- `file_size += 1` and `-= 1`, `hard_links += 1` and `-= 1`. -/
def grow (inode : Inode) : Option Inode :=
  if inode.file_size + 1 < 2 ^ 64 then some { inode with file_size := inode.file_size + 1 }
  else none

def shrink (inode : Inode) : Option Inode :=
  if 1 ≤ inode.file_size then some { inode with file_size := inode.file_size - 1 } else none

def link (inode : Inode) : Option Inode :=
  if inode.hard_links.toNat + 1 < 2 ^ 32 then
    some { inode with hard_links := inode.hard_links + 1 }
  else none

def unlink (inode : Inode) : Option Inode :=
  if 1 ≤ inode.hard_links then some { inode with hard_links := inode.hard_links - 1 } else none

end Inode

/-- `create_tmp_inode_from_sb_blk` of rvfs, on the super block that a directory points to: an inode
with the number, or an error; `none` when the super block is gone. -/
structure TmpInode where
  make : UInt64 → Option (StrResult Inode)
  numbered (n : UInt64) (i : Inode) : make n = some (.ok i) → i.number = n

/-- rvfs makes every inode, with its two links to begin with. -/
def TmpInode.always : TmpInode where
  make n := some (.ok ⟨n, 0, 2⟩)
  numbered n i h := by
    cases h
    rfl

/-! ## The hooks on the common functions -/

/-- What follows the commit of a new inode: rvfs makes it in memory, and then the directory
grows there. -/
def rvfs_created (tmp_inode : TmpInode) (dir : Inode) (attr : DbfsAttr) :
    Fs (StrResult (Inode × Inode)) := do
  match ← Fs.unwrap (tmp_inode.make attr.ino) with
  | .error msg => pure (.error msg)
  | .ok n_inode => do
    let dir ← Fs.unwrap dir.grow
    pure (.ok (dir, n_inode))

theorem rvfs_created_state (tmp_inode : TmpInode) (dir : Inode) (attr : DbfsAttr) (s : Sys) :
    (rvfs_created tmp_inode dir attr s).2 = s := by
  refine Fs.unwrap_bind_state (fun r s => ?_) s
  rcases r with msg | n_inode
  · rfl
  · exact Fs.unwrap_bind_state (fun _ _ => rfl) s

/-- The directory in memory and the new inode. -/
def dbfs_rvfs_create [Features] (tmp_inode : TmpInode) (dir : Inode) (name : String)
    (inode_mode : InodeMode) (target_path : Option String) : Fs (StrResult (Inode × Inode)) :=
  Fs.or_str "dbfs_rvfs_create: dbfs_common_create failed"
    (dbfs_common_create dir.number name 0 0 .default (permission_from_mode inode_mode) target_path
      none) (rvfs_created tmp_inode dir)

def dbfs_create [Features] (tmp_inode : TmpInode) (dir : Inode) (name : String) :
    Fs (StrResult (Inode × Inode)) := dbfs_rvfs_create tmp_inode dir name .S_FILE none

def dbfs_mkdir [Features] (tmp_inode : TmpInode) (dir : Inode) (name : String) :
    Fs (StrResult (Inode × Inode)) := dbfs_rvfs_create tmp_inode dir name .S_DIR none

def dbfs_symlink [Features] (tmp_inode : TmpInode) (dir : Inode) (name target : String) :
    Fs (StrResult (Inode × Inode)) :=
  dbfs_rvfs_create tmp_inode dir name .S_SYMLINK (some target)

def dbfs_link (old_inode dir : Inode) (name : String) : Fs (StrResult (Inode × Inode)) :=
  Fs.or_str "DbfsError::NotFound" (dbfs_common_link 0 0 old_inode.number dir.number name .default)
    fun _ => do
      let old_inode ← Fs.unwrap old_inode.link
      let dir ← Fs.unwrap dir.grow
      pure (.ok (old_inode, dir))

def dbfs_unlink (dir : Inode) (name : String) (inode : Inode) : Fs (StrResult Inode) :=
  Fs.or_str "dbfs_common_unlink failed"
    (dbfs_common_unlink 0 0 dir.number name (some inode.number) .default)
    fun _ => do
      let inode ← Fs.unwrap inode.unlink
      pure (.ok inode)

def dbfs_rmdir (dir : Inode) (name : String) : Fs (StrResult Inode) :=
  Fs.or_str "dbfs_common_rmdir failed" (dbfs_common_rmdir 0 0 dir.number name .default)
    fun _ => do
      let dir ← Fs.unwrap dir.shrink
      pure (.ok dir)

def dbfs_truncate [Features] (inode : Inode) : Fs (StrResult Unit) :=
  Fs.or_str "dbfs_truncate: truncate failed"
    (dbfs_common_truncate 0 0 inode.number .default (UInt64.ofNat inode.file_size))
    fun _ => pure (.ok ())

/-! ## Attributes -/

def attr_key (key : String) : Bytes := as_bytes ("attr:" ++ key)

def dbfs_setattr (inode : Inode) (key : String) (val : Bytes) : Fs (StrResult Unit) :=
  Fs.write do
    unwrap_ok (get_bucket inode.number)
    put inode.number (attr_key key) val
    pure (.ok ())

/-- The transaction is committed also when there was nothing to delete. -/
def dbfs_removeattr (inode : Inode) (key : String) : Fs (StrResult Unit) :=
  Fs.write do
    unwrap_ok (get_bucket inode.number)
    let kv ← get_kv inode.number (attr_key key)
    if kv.isSome then do
      delete inode.number (attr_key key)
      pure (.ok ())
    else pure (.error "not found")

/-! ## Rename -/

/-- `to_string` of a size. -/
def size_text (size : Nat) : Bytes := as_bytes (format_usize (UInt64.ofNat size))

/-- The write transaction of rename. The entry gets the number of the new directory, and the sizes
are written as text; inside one directory there is no new entry at all. The counts in memory are
changed before the commit. -/
def dbfs_rename_tx (old_dir : Inode) (old_name : String) (new_dir : Inode) (new_name : String) :
    Tx (Inode × Inode) := do
  unwrap_ok (get_bucket old_dir.number)
  if new_dir.number = old_dir.number then do
    put old_dir.number (generate_data_key old_name) (ino_bytes new_dir.number)
    pure (old_dir, new_dir)
  else do
    unwrap_ok (get_bucket new_dir.number)
    unwrap_ok (delete old_dir.number (generate_data_key old_name))
    let size ← read_usize old_dir.number .size
    let size ← sub_usize size 1
    put old_dir.number Field.size.key (size_text size)
    put new_dir.number (generate_data_key new_name) (ino_bytes new_dir.number)
    let size ← read_usize new_dir.number .size
    let size ← add_usize size 1
    put new_dir.number Field.size.key (size_text size)
    let old_dir ← unwrap old_dir.shrink
    let new_dir ← unwrap new_dir.grow
    pure (old_dir, new_dir)

def dbfs_rename (old_dir : Inode) (old_name : String) (new_dir : Inode) (new_name : String) :
    Fs (StrResult (Inode × Inode)) := do
  let found ← Fs.read do
    unwrap_ok (get_bucket old_dir.number)
    match ← get_kv old_dir.number (generate_data_key old_name) with
    | none => pure false
    | some value => do
      let _number ← unwrap (parse_ino value)
      pure true
  if found then do
    let dirs ← Fs.write (dbfs_rename_tx old_dir old_name new_dir new_name)
    pure (.ok dirs)
  else pure (.error "dbfs_rename: old_dentry not found")

section spec

variable {old_dir new_dir : Inode} {old_name new_name : String} {dirs : Inode × Inode} {s : Sys}
  {db db' : Db}

/-- What rename across directories leaves. -/
def rename_texts (db : Db) (old_dir new_dir : UInt64) (old_name new_name : String)
    (old_size new_size : Nat) : Db :=
  (((db.delete old_dir (generate_data_key old_name)).put old_dir Field.size.key
    (size_text (old_size - 1))).put new_dir (generate_data_key new_name) (ino_bytes new_dir)).put
    new_dir Field.size.key (size_text (new_size + 1))

theorem dbfs_rename_tx_spec
    (h : dbfs_rename_tx old_dir old_name new_dir new_name db = .Ok (dirs, db')) :
    db.Has old_dir.number ∧
      (new_dir.number = old_dir.number ∧
        db' = db.put old_dir.number (generate_data_key old_name) (ino_bytes old_dir.number) ∨
      new_dir.number ≠ old_dir.number ∧ ∃ old_size new_size,
        db.usize old_dir.number .size = some old_size ∧ 1 ≤ old_size ∧
        db.usize new_dir.number .size = some new_size ∧ new_size + 1 < 2 ^ 64 ∧
        db' =
          rename_texts db old_dir.number new_dir.number old_name new_name old_size new_size) := by
  simp [dbfs_rename_tx] at h
  obtain ⟨hold, ⟨hsame, ⟨_, rfl⟩, _⟩ | ⟨hne, _, _, a, ha, ha1, _, _, b, hb, hlt, _, _, _, _,
    ⟨_, rfl⟩, _⟩⟩ := h
  · exact ⟨hold, .inl ⟨hsame, by rw [hsame]⟩⟩
  · rw [if_neg fun e => hne e.1] at hb
    exact ⟨hold, .inr ⟨hne, a, b, ha, ha1, hb, hlt, rfl⟩⟩

/-- The hook commits its one write transaction or changes nothing. -/
theorem dbfs_rename_state (old_dir new_dir : Inode) (old_name new_name : String) (s : Sys) :
    (dbfs_rename old_dir old_name new_dir new_name s).2 = s ∨
      ∃ dirs db', dbfs_rename_tx old_dir old_name new_dir new_name s.db = .Ok (dirs, db') ∧
        (dbfs_rename old_dir old_name new_dir new_name s).2 = { s with db := db' } := by
  unfold dbfs_rename
  rw [Fs.bind_read]
  split
  · rename_i found _ _
    cases found with
    | false => exact .inl rfl
    | true =>
      rw [if_pos rfl, Fs.bind_write]
      rcases htx : dbfs_rename_tx old_dir old_name new_dir new_name s.db with ⟨dirs, db'⟩ | _ | _
      · exact .inr ⟨dirs, db', rfl, rfl⟩
      · exact .inl rfl
      · exact .inl rfl
  · exact .inl rfl
  · exact .inl rfl

/-- Without an entry of the old name nothing is written. -/
theorem dbfs_rename_none (h : s.db.get old_dir.number (generate_data_key old_name) = none) :
    (dbfs_rename old_dir old_name new_dir new_name s).2 = s := by
  unfold dbfs_rename
  rw [Fs.bind_read]
  split
  · rename_i found _ hread
    simp [h] at hread
    rw [hread.2.1]
    rfl
  · rfl
  · rfl

end spec

end inode

end dbfs2
