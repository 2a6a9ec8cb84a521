-- The attributes that six calls reply with, against the ones that a call of
-- `dbfs_common_attr` behind them returns: the front end hands the reply on as what is
-- stored.
import Dbfs2.Creation

namespace dbfs2

open common Tx inode attr file

/-! ## The calls that reply with attributes -/

inductive ReplyCall where
  | create (dir : UInt64) (name : String) (c_time : DbfsTimeSpec) (permission : DbfsPermission)
      (target_path : Option String) (dev : Option UInt32)
  | link (ino new_ino : UInt64) (name : String) (ctime : DbfsTimeSpec)
  | truncate (ino : UInt64) (ctime : DbfsTimeSpec) (f_size : UInt64)
  | chmod (ino : UInt64) (mode : UInt16) (ctime : DbfsTimeSpec)
  | chown (ino : UInt64) (uid gid : Option UInt32) (c_time : DbfsTimeSpec)
  | utimens (ino : UInt64) (atime mtime : Option DbfsTimeSpec) (c_time : DbfsTimeSpec)

namespace ReplyCall

variable [Features]

def run (r_uid r_gid : UInt32) : ReplyCall → Fs DbfsAttr
  | create dir name c_time permission target_path dev =>
    dbfs_common_create dir name r_uid r_gid c_time permission target_path dev
  | link ino new_ino name ctime => dbfs_common_link r_uid r_gid ino new_ino name ctime
  | truncate ino ctime f_size => dbfs_common_truncate r_uid r_gid ino ctime f_size
  | chmod ino mode ctime => dbfs_common_chmod r_uid r_gid ino mode ctime
  | chown ino uid gid c_time => dbfs_common_chown r_uid r_gid ino uid gid c_time
  | utimens ino atime mtime c_time => dbfs_common_utimens r_uid r_gid ino atime mtime c_time

omit [Features] in
/-- The inode that the reply is about. -/
def inode (s : Sys) : ReplyCall → UInt64
  | create .. => s.DBFS_INODE_NUMBER
  | link ino .. => ino
  | truncate ino .. => ino
  | chmod ino .. => ino
  | chown ino .. => ino
  | utimens ino .. => ino

/-- When the reply is what is stored. Create always replies with no blocks, blocks of 512 bytes
and the device that was given; truncate replies with the blocks of the old size. -/
def RepliesStored (db : Db) : ReplyCall → Prop
  | create _ _ _ permission _ dev => SLICE_SIZE = 512 ∧
    (permission.contains DbfsPermission.S_IFREG = true ∨
      permission.contains DbfsPermission.S_IFCHR = true ∨
      permission.contains DbfsPermission.S_IFIFO = true) ∧
    ∀ kind, DbfsFileType.from permission = some kind →
      if IsDevice kind then dev.isSome = true
      else (permission.contains DbfsPermission.S_IFSOCK = true ∨
        permission.contains DbfsPermission.S_IFCHR = true ∨
        permission.contains DbfsPermission.S_IFIFO = true) → dev.getD 0 = 0
  | truncate ino _ f_size => ∀ size blksize, db.usize ino .size = some size →
    db.u32 ino .block_size = some blksize → f_size.toNat + blksize.toNat < 2 ^ 64 ∧
      (size + blksize.toNat - 1) / blksize.toNat =
        (f_size.toNat + blksize.toNat - 1) / blksize.toNat
  | _ => True

end ReplyCall

/-! ## Replies that patch the attributes -/

section patch

variable {db db' : Db} {n : UInt64} {attr : DbfsAttr}

/-- A call that keeps the link count, the block size and the device, and a type, shows the fields
that it wrote; the number of blocks is the one of the new size. -/
theorem ShowsAttr.patched_iff (h : ShowsAttr db n attr) {size : Nat} {perm : DbfsPermission}
    {uid gid : UInt32} {atime mtime ctime : DbfsTimeSpec}
    (hkeep : ∀ f : Field, f = .hard_links ∨ f = .block_size ∨ f = .dev →
      db'.get n f.key = db.get n f.key)
    (htype : perm &&& DbfsPermission.S_IFMT = attr.perm &&& DbfsPermission.S_IFMT)
    (hsize : db'.usize n .size = some size) (hmode : db'.u16 n .mode = some perm)
    (huid : db'.u32 n .uid = some uid) (hgid : db'.u32 n .gid = some gid)
    (hatime : (db'.get n Field.atime.key).bind dbfs_time_spec = some atime)
    (hmtime : (db'.get n Field.mtime.key).bind dbfs_time_spec = some mtime)
    (hctime : (db'.get n Field.ctime.key).bind dbfs_time_spec = some ctime) :
    ShowsAttr db' n { attr with size, perm, uid, gid, atime, mtime, ctime } ↔
      size + attr.blksize.toNat < 2 ^ 64 ∧
        attr.blocks = (size + attr.blksize.toNat - 1) / attr.blksize.toNat := by
  refine ⟨fun h' => h'.blocks.2, fun hblocks => ?_⟩
  have hkind : DbfsFileType.from perm = some attr.kind := by
    rw [DbfsFileType.from_and, htype, ← DbfsFileType.from_and, h.kind]
  refine ⟨hsize, hmode, hkind, ?_, huid, hgid, ?_, ⟨h.blocks.1, hblocks⟩, hatime, hmtime, hctime,
    ?_, h.rest⟩
  · rw [Db.u32, hkeep .hard_links (.inl rfl)]
    exact h.hard_links
  · rw [Db.u32, hkeep .block_size (.inr (.inl rfl))]
    exact h.block_size
  · rw [Db.u32, hkeep .dev (.inr (.inr rfl))]
    exact h.rdev

variable {r_uid r_gid : UInt32} {s s' : Sys}

theorem link_shows {new_ino : UInt64} {name : String} {t : DbfsTimeSpec}
    (h : dbfs_common_link r_uid r_gid n new_ino name t s = (.Ok attr, s')) :
    ShowsAttr s'.db n attr := by
  simp only [dbfs_common_link, Fs.bind_ok, Fs.map_err_ok, dbfs_common_attr, Fs.read_ok,
    Fs.ensure_ok, Fs.write_ok] at h
  obtain ⟨_, _, _, _, _, _, _, _, _, ⟨db', hattr⟩, rfl⟩ := h
  exact (attr_tx_iff.mp hattr).1

theorem chmod_shows {mode : UInt16} {t : DbfsTimeSpec}
    (h : dbfs_common_chmod r_uid r_gid n mode t s = (.Ok attr, s')) : ShowsAttr s'.db n attr := by
  simp only [dbfs_common_chmod, Fs.bind_ok, Fs.map_err_ok, dbfs_common_attr, Fs.read_ok,
    Fs.ensure_ok] at h
  obtain ⟨a, _, ⟨⟨_, hattr⟩, rfl⟩, _, _, ⟨_, rfl⟩, _, _, ⟨_, rfl⟩, h⟩ := h
  have hs := (attr_tx_iff.mp hattr).1
  have hn := Db.has_of_u16 hs.mode
  split_ifs at h with hne
  · simp only [Fs.bind_ok, Fs.write_ok, Fs.pure_ok] at h
    obtain ⟨_, _, ⟨db', htx, rfl⟩, rfl, rfl⟩ := h
    simp [chmod_tx] at htx
    obtain ⟨_, rfl⟩ := htx
    refine (hs.patched_iff ?_ (chmod_mode_type a.perm mode) ?_ ?_ ?_ ?_ ?_ ?_ ?_).mpr hs.blocks.2
    · rintro f (rfl | rfl | rfl) <;> simp
    all_goals simp [hn, hs.size, hs.uid, hs.gid, hs.atime, hs.mtime, dbfs_time_spec_be]
  · simp only [Fs.pure_ok] at h
    obtain ⟨rfl, rfl⟩ := h
    exact hs

theorem chown_shows {uid gid : Option UInt32} {t : DbfsTimeSpec}
    (h : dbfs_common_chown r_uid r_gid n uid gid t s = (.Ok attr, s')) :
    ShowsAttr s'.db n attr := by
  simp only [dbfs_common_chown, Fs.bind_ok, Fs.map_err_ok, dbfs_common_attr, Fs.read_ok,
    Fs.ensure_ok, Fs.write_ok, Fs.pure_ok] at h
  obtain ⟨a, _, ⟨⟨_, hattr⟩, rfl⟩, _, _, ⟨_, rfl⟩, _, _, ⟨_, rfl⟩, _, _, ⟨_, rfl⟩, _, _,
    ⟨db', htx, rfl⟩, rfl, rfl⟩ := h
  have hs := (attr_tx_iff.mp hattr).1
  have hn := Db.has_of_u16 hs.mode
  simp [chown_tx] at htx
  obtain ⟨_, rfl⟩ := htx
  refine (hs.patched_iff ?_ (chown_mode_trimmed a.perm uid gid).type ?_ ?_ ?_ ?_ ?_ ?_ ?_).mpr
    hs.blocks.2
  · rintro f (rfl | rfl | rfl) <;> simp
  all_goals simp [hn, hs.size, hs.atime, hs.mtime, dbfs_time_spec_be]

theorem utimens_shows {atime mtime : Option DbfsTimeSpec} {t : DbfsTimeSpec}
    (h : dbfs_common_utimens r_uid r_gid n atime mtime t s = (.Ok attr, s')) :
    ShowsAttr s'.db n attr := by
  simp only [dbfs_common_utimens, Fs.bind_ok, dbfs_common_attr, Fs.read_ok, Fs.ensure_ok,
    Fs.write_ok, Fs.pure_ok] at h
  obtain ⟨a, _, ⟨⟨_, hattr⟩, rfl⟩, _, _, ⟨_, rfl⟩, _, _, ⟨_, rfl⟩, _, _, ⟨db', htx, rfl⟩, rfl,
    rfl⟩ := h
  have hs := (attr_tx_iff.mp hattr).1
  have hn := Db.has_of_u16 hs.mode
  simp [utimens_tx, hn] at htx
  subst htx
  refine (hs.patched_iff ?_ rfl ?_ ?_ ?_ ?_ ?_ ?_ ?_).mpr hs.blocks.2
  · rintro f (rfl | rfl | rfl) <;> cases atime <;> cases mtime <;> simp
  all_goals
    cases atime <;> cases mtime <;>
      simp [hn, hs.size, hs.mode, hs.uid, hs.gid, hs.atime, hs.mtime, dbfs_time_spec_be]

/-- What truncate has stored when it returns attributes. -/
theorem truncate_patches [Features] {t : DbfsTimeSpec} {f_size : UInt64}
    (h : dbfs_common_truncate r_uid r_gid n t f_size s = (.Ok attr, s')) :
    ∃ a, ShowsAttr s.db n a ∧
      attr = { a with
        size := f_size.toNat, ctime := t, mtime := t, perm := clear_suid_sgid a.perm } ∧
      (∀ f : Field, f ∉ [Field.size, .mode, .ctime, .mtime] →
        s'.db.get n f.key = s.db.get n f.key) ∧
      s'.db.usize n .size = some attr.size ∧ s'.db.u16 n .mode = some attr.perm ∧
      (s'.db.get n Field.mtime.key).bind dbfs_time_spec = some t ∧
      (s'.db.get n Field.ctime.key).bind dbfs_time_spec = some t := by
  simp only [dbfs_common_truncate, truncate_attr, Fs.bind_ok, Fs.map_err_ok, dbfs_common_attr,
    Fs.read_ok, Fs.ensure_ok, Fs.pure_ok, Fs.write_ok] at h
  obtain ⟨a, s, ⟨_, _, ⟨⟨_, hattr⟩, rfl⟩, _, _, ⟨_, rfl⟩, rfl, rfl⟩, db', htx, rfl⟩ := h
  simp [truncate_tx] at htx
  obtain ⟨hn, _, db₁, hblocks, _, ⟨_, rfl⟩, rfl⟩ := htx
  obtain ⟨db₂, _, _, honly, _, _, rfl, _⟩ := truncate_blocks_ok hblocks
  have hn₂ := (honly.has n).mpr hn
  refine ⟨a, (attr_tx_iff.mp hattr).1, rfl, fun f hf => ?_, ?_, ?_, ?_, ?_⟩
  · simp only [List.mem_cons, List.not_mem_nil, or_false, not_or] at hf
    obtain ⟨hsize, hmode, hctime, hmtime⟩ := hf
    rw [← honly.get n f.key fun _ i => field_ne_slice_key f i]
    simp [hsize, hmode, hctime, hmtime]
  · simp [hn₂, usize_be f_size.toNat_lt]
  · simp [hn₂]
  · simp [hn₂, dbfs_time_spec_be]
  · simp [hn₂, dbfs_time_spec_be]

theorem truncate_shows_iff [Features] {t : DbfsTimeSpec} {f_size : UInt64}
    (h : dbfs_common_truncate r_uid r_gid n t f_size s = (.Ok attr, s')) :
    ShowsAttr s'.db n attr ↔ (ReplyCall.truncate n t f_size).RepliesStored s.db := by
  obtain ⟨a, hs, rfl, hget, hsize, hmode, hmtime, hctime⟩ := truncate_patches h
  have hcond : (ReplyCall.truncate n t f_size).RepliesStored s.db ↔
      f_size.toNat + a.blksize.toNat < 2 ^ 64 ∧
        a.blocks = (f_size.toNat + a.blksize.toNat - 1) / a.blksize.toNat := by
    rw [hs.blocks.2.2]
    refine ⟨fun hc => hc a.size a.blksize hs.size hs.block_size,
      fun hc size blksize hsize hblk => ?_⟩
    cases hs.size.symm.trans hsize
    cases hs.block_size.symm.trans hblk
    exact hc
  rw [hcond]
  refine hs.patched_iff ?_ (clear_suid_sgid_trimmed a.perm).type hsize hmode ?_ ?_ ?_ hmtime hctime
  · rintro f (rfl | rfl | rfl) <;> exact hget _ (by decide)
  · rw [Db.u32, hget .uid (by decide)]
    exact hs.uid
  · rw [Db.u32, hget .gid (by decide)]
    exact hs.gid
  · rw [hget .atime (by decide)]
    exact hs.atime

end patch

/-! ## The reply of create -/

section create

theorem contains_or (p q r : DbfsPermission) :
    p.contains (q ||| r) = (p.contains q && p.contains r) := by
  rw [Bool.eq_iff_iff, Bool.and_eq_true]
  constructor
  · intro h
    have hq : (q ||| r) &&& q = q := by
      simpa [DbfsPermission.contains, UInt16.or_comm] using contains_or_self r q
    have hr : (q ||| r) &&& r = r := by
      simpa [DbfsPermission.contains] using contains_or_self q r
    exact ⟨contains_of_contains h hq, contains_of_contains h hr⟩
  · have hand : p &&& (q ||| r) = (p &&& q) ||| (p &&& r) := by
      apply UInt16.toNat_inj.mp
      simp only [UInt16.toNat_and, UInt16.toNat_or, Nat.and_or_distrib_left]
    simp only [DbfsPermission.contains, beq_iff_eq, hand]
    rintro ⟨hq, hr⟩
    rw [hq, hr]

/-- Three of the types are two of the four type bits together. -/
theorem contains_two_bits (p : DbfsPermission) :
    p.contains DbfsPermission.S_IFSOCK =
        (p.contains DbfsPermission.S_IFREG && p.contains DbfsPermission.S_IFDIR) ∧
      p.contains DbfsPermission.S_IFLNK =
        (p.contains DbfsPermission.S_IFREG && p.contains DbfsPermission.S_IFCHR) ∧
      p.contains DbfsPermission.S_IFBLK =
        (p.contains DbfsPermission.S_IFDIR && p.contains DbfsPermission.S_IFCHR) :=
  ⟨contains_or p DbfsPermission.S_IFREG DbfsPermission.S_IFDIR,
    contains_or p DbfsPermission.S_IFREG DbfsPermission.S_IFCHR,
    contains_or p DbfsPermission.S_IFDIR DbfsPermission.S_IFCHR⟩

variable {permission : DbfsPermission} {kind : DbfsFileType} {target_path : Option String} 
  {dev : Option UInt32} {counts : UInt32 × Nat × Option UInt32}

/-- Only the mode of a plain directory has a size to start with; a device takes the number that is
given, and so does every other mode with the bits of a socket, a character device or a pipe. -/
theorem new_counts_of_kind (hkind : DbfsFileType.from permission = some kind)
    (h : new_counts permission target_path dev = some counts) :
    (counts.2.1 = 0 ↔ permission.contains DbfsPermission.S_IFREG = true ∨
      permission.contains DbfsPermission.S_IFCHR = true ∨
      permission.contains DbfsPermission.S_IFIFO = true) ∧
    (IsDevice kind → counts.2.2 = dev) ∧
    counts.2.2 = if permission.contains DbfsPermission.S_IFSOCK = true ∨
      permission.contains DbfsPermission.S_IFCHR = true ∨
      permission.contains DbfsPermission.S_IFIFO = true then dev else none := by
  obtain ⟨hsock, hlnk, hblk⟩ := contains_two_bits permission
  unfold DbfsFileType.from at hkind
  rw [new_counts_eq] at h
  rw [hsock, hlnk, hblk] at hkind
  rw [hsock, hblk] at h
  rw [hsock]
  unfold IsDevice
  clear hsock hlnk hblk
  generalize permission.contains DbfsPermission.S_IFREG = reg at hkind h ⊢
  generalize permission.contains DbfsPermission.S_IFDIR = dir at hkind h ⊢
  generalize permission.contains DbfsPermission.S_IFCHR = chr at hkind h ⊢
  generalize permission.contains DbfsPermission.S_IFIFO = fifo at hkind h ⊢
  cases reg <;> cases dir <;> cases chr <;> cases fifo <;> simp at hkind h <;>
    simp [← hkind, ← h]

variable [Features] {s s' : Sys} {attr : DbfsAttr} {dir : UInt64} {name : String}
  {uid gid : UInt32} {t : DbfsTimeSpec}

/-- The reply of create and the inode that it is about. -/
theorem create_reply
    (h : dbfs_common_create dir name uid gid t permission target_path dev s = (.Ok attr, s')) :
    ∃ kind gid' mode db counts, DbfsFileType.from permission = some kind ∧
      DbfsFileType.from mode = some kind ∧
      new_inode_tx s.DBFS_INODE_NUMBER dir uid gid' t mode permission target_path dev db =
        .Ok (counts, s'.db) ∧
      attr = { new_attr s.DBFS_INODE_NUMBER uid gid' t mode kind counts.1 counts.2.1
        (counts.2.2.getD 0) with blocks := 0, blksize := 512 } := by
  unfold dbfs_common_create at h
  change (Fs.write (create_tx s.DBFS_INODE_NUMBER dir name uid gid t permission target_path dev)
    >>= _) { s with DBFS_INODE_NUMBER := s.DBFS_INODE_NUMBER + 1 } = _ at h
  simp only [Fs.bind_ok, Fs.write_ok, Fs.unwrap_ok, Fs.pure_ok] at h
  obtain ⟨r, _, ⟨db', htx, rfl⟩, kind, _, ⟨hkind, rfl⟩, rfl, rfl⟩ := h
  obtain ⟨_, p_gid, p_mode, size, counts, _, _, _, _, hnew, rfl⟩ := create_tx_ok htx
  refine ⟨kind, _, _, _, counts, hkind, ?_, hnew, rfl⟩
  rw [DbfsFileType.from_and, new_mode_type, ← DbfsFileType.from_and, hkind]

theorem create_shows_iff
    (h : dbfs_common_create dir name uid gid t permission target_path dev s = (.Ok attr, s')) :
    ShowsAttr s'.db s.DBFS_INODE_NUMBER attr ↔
      (ReplyCall.create dir name t permission target_path dev).RepliesStored s.db := by
  obtain ⟨kind, gid', mode, db, counts, hkind, hmode, hnew, rfl⟩ := create_reply h
  obtain ⟨hsize, hdevice, hdev⟩ := new_counts_of_kind hkind (new_inode_tx_spec hnew).2.1
  have hS := SLICE_SIZE_pos
  have hsame : ∀ rdev, { new_attr s.DBFS_INODE_NUMBER uid gid' t mode kind counts.1 counts.2.1
      (counts.2.2.getD 0) with blocks := 0, blksize := 512 } =
        new_attr s.DBFS_INODE_NUMBER uid gid' t mode kind counts.1 counts.2.1 rdev ↔
      SLICE_SIZE = 512 ∧ counts.2.1 = 0 ∧ counts.2.2.getD 0 = rdev := by
    intro rdev
    have hblocks : 0 = (counts.2.1 + SLICE_SIZE - 1) / SLICE_SIZE ↔ counts.2.1 = 0 := by
      rw [eq_comm, Nat.div_eq_zero_iff]
      omega
    have hblk : 512 = UInt32.ofNat SLICE_SIZE ↔ SLICE_SIZE = 512 := by
      rw [← UInt32.toNat_inj, slice_size_u32]
      exact eq_comm
    simp only [new_attr, DbfsAttr.mk.injEq, true_and, and_true, hblocks, hblk]
    tauto
  rw [new_inode_shows_iff hnew hmode]
  simp only [hsame, ReplyCall.RepliesStored, hkind, Option.some_inj, forall_eq', ← hsize]
  split_ifs with hd
  · rw [hdevice hd, Option.isSome_iff_exists]
    constructor
    · rintro ⟨rdev, hgiven, hS', hzero, _⟩
      exact ⟨hS', hzero, rdev, hgiven⟩
    · rintro ⟨hS', hzero, rdev, rfl⟩
      exact ⟨rdev, rfl, hS', hzero, rfl⟩
  · rw [hdev]
    split_ifs with hbits
    · simp [hbits]
    · simp [hbits]

end create

/-! ## The replies of all six -/

/-- A reply is what is stored exactly when create makes no directory, its device number is one
that is stored, and blocks have 512 bytes, and when truncate leaves the number of blocks. -/
theorem reply_stored_iff [Features] (c : ReplyCall) (r_uid r_gid : UInt32) (s s' : Sys)
    (attr : DbfsAttr) (h : c.run r_uid r_gid s = (.Ok attr, s')) :
    dbfs_common_attr (c.inode s) s' = (.Ok attr, s') ↔ c.RepliesStored s.db := by
  rw [attr_ok_iff]
  cases c with
  | create => exact create_shows_iff h
  | link => exact iff_of_true (link_shows h) trivial
  | truncate => exact truncate_shows_iff h
  | chmod => exact iff_of_true (chmod_shows h) trivial
  | chown => exact iff_of_true (chown_shows h) trivial
  | utimens => exact iff_of_true (utimens_shows h) trivial

section sample

attribute [local instance] sli512_features

/-- A new directory, and the new file after it was grown by one block. -/
def made_directory : DbfsResult DbfsAttr × Sys :=
  dbfs_common_create 1 "d" 0 0 .default (DbfsPermission.S_IFDIR ||| 0o755) none none
    (fs_type.new_fs 0 0 .default)

def grown_by_a_block : DbfsResult DbfsAttr × Sys :=
  dbfs_common_truncate 0 0 2 .default 512 with_new_file.2

theorem replies_have_no_blocks :
    (∃ attr, made_directory.1 = .Ok attr ∧ attr.blocks = 0 ∧
      (dbfs_common_attr 2 made_directory.2).1 = .Ok { attr with blocks := 1 }) ∧
    ∃ attr, grown_by_a_block.1 = .Ok attr ∧ attr.blocks = 0 ∧
      (dbfs_common_attr 2 grown_by_a_block.2).1 = .Ok { attr with blocks := 1 } :=
  ⟨⟨{ new_file_attr with size := 2, kind := .Directory, perm := 0o42755, nlink := 2 },
      by decide +kernel, rfl, by decide +kernel⟩,
    { new_file_attr with size := 512 }, by decide +kernel, rfl, by decide +kernel⟩

theorem new_file_replies_what_is_stored :
    dbfs_common_attr 2 with_new_file.2 = (.Ok new_file_attr, with_new_file.2) := by
  refine (reply_stored_iff (.create 1 "f" .default (DbfsPermission.S_IFREG ||| 0o644) none none) 0 0
    (fs_type.new_fs 0 0 .default) with_new_file.2 new_file_attr with_new_file_eq).mpr
    ⟨rfl, .inl (by decide), fun kind hkind => ?_⟩
  cases hkind
  decide

end sample

end dbfs2
