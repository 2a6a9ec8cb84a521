-- Symbolic links. The target stands in a field of its own and may have any length; readlink
-- copies it through a buffer for one path, and the size of a link is that of a device.
import Dbfs2.Creation

namespace dbfs2

open common Tx inode

def MAX_PATH_LEN : Nat := 255

namespace inode

/-- Fills the front of the buffer, and says how far. -/
def dbfs_common_readlink (ino : UInt64) (buf : Bytes) : Fs (Nat × Bytes) :=
  Fs.read do
    get_bucket ino
    let value ← get_kv ino Field.data.key
    let value ← unwrap value
    let len := min value.length buf.length
    pure (len, Slices.overlay buf 0 (value.take len))

end inode

namespace fuse

/-- Only the name has a limit. -/
def dbfs_fuse_symlink [Features] (uid gid : UInt32) (parent : UInt64) (name link : String)
    (time : DbfsTimeSpec) : Fs DbfsAttr := do
  Fs.ensure (name.utf8ByteSize ≤ MAX_PATH_LEN) .NameTooLong
  dbfs_common_create parent name uid gid time (0o777 ||| DbfsPermission.S_IFLNK) (some link) none

/-- The whole buffer goes out. -/
def dbfs_fuse_readlink (ino : UInt64) : Fs Bytes := do
  let (_, buf) ← dbfs_common_readlink ino (List.replicate MAX_PATH_LEN 0)
  pure buf

end fuse

open fuse

/-! ## What readlink gives -/

/-- The bytes up to the first zero. -/
def cut (buf : Bytes) : Bytes := buf.takeWhile (· != 0)

theorem cut_zeros {bytes : Bytes} (h : 0 ∉ bytes) (n : Nat) :
    cut (bytes ++ List.replicate n 0) = bytes := by
  have hall : ∀ b ∈ bytes, (b != 0) = true := by
    intro b hb
    rw [bne_iff_ne]
    rintro rfl
    exact h hb
  rw [cut, List.takeWhile_append_of_pos hall, List.takeWhile_replicate]
  simp

theorem readlink_eq {s : Sys} {ino : UInt64} {value : Bytes}
    (h : s.db.get ino Field.data.key = some value) :
    dbfs_fuse_readlink ino s =
      (.Ok (value.take MAX_PATH_LEN ++ List.replicate (MAX_PATH_LEN - value.length) 0), s) := by
  have hn := Db.has_of_get h
  have hbuf : Slices.overlay (List.replicate MAX_PATH_LEN 0) 0
      (value.take (min value.length (List.replicate MAX_PATH_LEN (0 : UInt8)).length)) =
      value.take MAX_PATH_LEN ++ List.replicate (MAX_PATH_LEN - value.length) 0 := by
    simp only [Slices.overlay, List.take_zero, List.nil_append, List.length_replicate,
      List.length_take, List.drop_replicate, Nat.zero_add]
    rw [List.take_eq_take_min (i := MAX_PATH_LEN), Nat.min_comm]
    congr 2
    omega
  rw [dbfs_fuse_readlink, dbfs_common_readlink, Fs.bind_read,
    bind_of_ok (get_bucket_ok (u := ()).mpr ⟨hn, rfl⟩),
    bind_of_ok (get_kv_ok.mpr ⟨hn, h.symm, rfl⟩), bind_of_ok (unwrap_ok_iff.mpr ⟨rfl, rfl⟩), ← hbuf]
  rfl

/-! ## What symlink leaves -/

section made

variable [Features] {s s' : Sys} {uid gid : UInt32} {parent : UInt64} {name link : String}
  {t : DbfsTimeSpec} {attr : DbfsAttr}

/-- The new inode holds the target and shows the size zero: it has the bit of a character
device. -/
theorem symlink_made (h : dbfs_fuse_symlink uid gid parent name link t s = (.Ok attr, s')) :
    s'.db.get attr.ino Field.data.key = some (as_bytes link) ∧
      ∃ a, ShowsAttr s'.db attr.ino a ∧ a.size = 0 := by
  simp only [dbfs_fuse_symlink, Fs.bind_ok, Fs.ensure_ok] at h
  obtain ⟨_, _, ⟨_, rfl⟩, h⟩ := h
  obtain ⟨hino, r, htx⟩ := create_spec h
  obtain ⟨_, p_gid, p_mode, size, counts, _, _, _, hnew⟩ := create_tx_spec htx
  have hty : (0o777 ||| DbfsPermission.S_IFLNK) &&& DbfsPermission.S_IFMT =
      DbfsFileType.Symlink.bits := by decide
  have hkind : DbfsFileType.from (new_mode uid p_mode (0o777 ||| DbfsPermission.S_IFLNK)) =
      some .Symlink := DbfsFileType.from_bits (by rw [new_mode_type, hty])
  have hcounts := (new_inode_tx_spec hnew).2.1
  cases (new_counts_by_type hty (some link) none).symm.trans hcounts
  have hrdev : if IsDevice .Symlink then (made_counts .Symlink none).2.2 = some 0
      else (0 : UInt32) = 0 := by decide
  rw [hino]
  refine ⟨?_, _, new_inode_shows hnew hkind hrdev, rfl⟩
  rw [(new_inode_tx_target hnew).2, if_pos (by decide)]
  rfl

/-- The link has the target it was made with. -/
def ReadsBack (s : Sys) (ino : UInt64) (link : String) : Prop :=
  ∃ buf, dbfs_fuse_readlink ino s = (.Ok buf, s) ∧ cut buf = as_bytes link

/-- And the size that is shown is the length of the target. -/
structure UndoesSymlink (s : Sys) (ino : UInt64) (link : String) : Prop where
  target : ReadsBack s ino link
  size : ∃ attr, dbfs_common_attr ino s = (.Ok attr, s) ∧ attr.size = link.utf8ByteSize

/-- A target comes back as far as the buffer holds it. -/
theorem reads_back_iff (h : dbfs_fuse_symlink uid gid parent name link t s = (.Ok attr, s'))
    (hnul : 0 ∉ as_bytes link) :
    ReadsBack s' attr.ino link ↔ link.utf8ByteSize ≤ MAX_PATH_LEN := by
  have hread := readlink_eq (symlink_made h).1
  have hnul' : 0 ∉ (as_bytes link).take MAX_PATH_LEN := fun h => hnul (List.mem_of_mem_take h)
  have hcut := cut_zeros hnul' (MAX_PATH_LEN - (as_bytes link).length)
  rw [← length_as_bytes, ← List.take_eq_self_iff]
  constructor
  · rintro ⟨buf, hbuf, hback⟩
    cases hread.symm.trans hbuf
    exact hcut.symm.trans hback
  · intro hfits
    exact ⟨_, hread, hcut.trans hfits⟩

theorem shows_length_iff (h : dbfs_fuse_symlink uid gid parent name link t s = (.Ok attr, s')) :
    (∃ a, dbfs_common_attr attr.ino s' = (.Ok a, s') ∧ a.size = link.utf8ByteSize) ↔
      link = "" := by
  obtain ⟨_, a, hshows, hzero⟩ := symlink_made h
  simp only [attr_ok_iff]
  constructor
  · rintro ⟨b, hb, hsize⟩
    cases hshows.unique hb
    exact String.utf8ByteSize_eq_zero_iff.mp (hsize.symm.trans hzero)
  · rintro rfl
    exact ⟨a, hshows, hzero⟩

/-- Readlink undoes symlink, and the size is that of the target, for the empty target alone. -/
theorem undoes_symlink_iff (h : dbfs_fuse_symlink uid gid parent name link t s = (.Ok attr, s'))
    (hnul : 0 ∉ as_bytes link) : UndoesSymlink s' attr.ino link ↔ link = "" := by
  constructor
  · intro hu
    exact (shows_length_iff h).mp hu.size
  · rintro rfl
    exact ⟨(reads_back_iff h hnul).mpr (by decide), (shows_length_iff h).mpr rfl⟩

end made

/-! ## Three links -/

section sample

attribute [local instance] sli512_features

/-- A link in a new file system. -/
def with_link (link : String) : DbfsResult DbfsAttr × Sys :=
  dbfs_fuse_symlink 0 0 1 "l" link .default (fs_type.new_fs 0 0 .default)

def link_attr : DbfsAttr :=
  { ino := 2, size := 0, blocks := 0, atime := .default, mtime := .default, ctime := .default,
    crtime := .default, kind := .Symlink, perm := 0o120777, nlink := 1, uid := 0, gid := 0,
    rdev := 0, blksize := 512, padding := 0, flags := 0 }

/-- A target of 256 bytes. -/
def long_link : String := String.ofList (List.replicate 256 'a')

/-- A target of one byte has the size zero, and one of 256 bytes loses the last of them. -/
theorem links_come_back_changed :
    ((with_link "f").1 = .Ok link_attr ∧ ¬ UndoesSymlink (with_link "f").2 2 "f") ∧
      (with_link long_link).1 = .Ok link_attr ∧
      dbfs_fuse_readlink 2 (with_link long_link).2 =
        (.Ok (List.replicate 255 0x61), (with_link long_link).2) ∧
      ¬ UndoesSymlink (with_link long_link).2 2 long_link := by
  have hattr : dbfs_common_attr 2 (with_link "f").2 = (.Ok link_attr, (with_link "f").2) := by
    decide +kernel
  have hread : dbfs_fuse_readlink 2 (with_link long_link).2 =
      (.Ok (List.replicate 255 0x61), (with_link long_link).2) := by decide +kernel
  refine ⟨⟨by decide +kernel, fun h => ?_⟩, by decide +kernel, hread, fun h => ?_⟩
  · obtain ⟨a, ha, hsize⟩ := h.size
    cases hattr.symm.trans ha
    exact absurd hsize (by decide)
  · obtain ⟨buf, hbuf, hback⟩ := h.target
    cases hread.symm.trans hbuf
    exact absurd hback (by decide +kernel)

theorem empty_link_undone : UndoesSymlink (with_link "").2 2 "" := by
  have h : with_link "" = (.Ok link_attr, (with_link "").2) :=
    Prod.ext (by decide +kernel) rfl
  exact (undoes_symlink_iff h (by decide)).mpr rfl

end sample

end dbfs2
