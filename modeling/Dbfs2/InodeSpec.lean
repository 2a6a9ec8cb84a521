-- What each of the five naming calls has checked and done when it returns: one
-- lemma per transaction, from which the laws of the tree and of its permissions
-- follow without a second look at the code.
import Dbfs2.Inode

namespace dbfs2

open common Tx inode

/-- The requester may write in inode `d`, by the check of the calls on its stored owner,
group and mode. -/
def Db.Grants (db : Db) (d : UInt64) (uid gid : UInt32) : Prop :=
  ∃ p_uid p_gid p_mode, db.u32 d .uid = some p_uid ∧ db.u32 d .gid = some p_gid ∧
    db.u16 d .mode = some p_mode ∧
    checkout_access p_uid p_gid (p_mode &&& 0o777) uid gid ACCESS_W_OK = true

theorem root_may_write (p_uid p_gid : UInt32) (mode : DbfsPermission) (gid : UInt32) :
    checkout_access p_uid p_gid mode 0 gid ACCESS_W_OK = true := by
  have hx : (2 &&& 1 : UInt16) = 0 := by decide
  simp [checkout_access, ACCESS_W_OK, hx]

/-- The sticky bit of `d` lets the requester take away an entry for inode `i`. -/
def Db.MayTake (db : Db) (d i : UInt64) (uid : UInt32) : Prop :=
  ∃ p_uid p_mode i_uid, db.u32 d .uid = some p_uid ∧ db.u16 d .mode = some p_mode ∧
    db.u32 i .uid = some i_uid ∧ sticky_ok p_mode uid p_uid i_uid = true

/-! ## Attributes -/

def IsDevice (ty : DbfsFileType) : Prop := ty = .CharDevice ∨ ty = .BlockDevice

instance (ty : DbfsFileType) : Decidable (IsDevice ty) := inferInstanceAs (Decidable (_ ∨ _))

/-- The stored fields of an inode are the ones that its attributes show. -/
structure ShowsAttr (db : Db) (n : UInt64) (attr : DbfsAttr) : Prop where
  size : db.usize n .size = some attr.size
  mode : db.u16 n .mode = some attr.perm
  kind : DbfsFileType.from attr.perm = some attr.kind
  hard_links : db.u32 n .hard_links = some attr.nlink
  uid : db.u32 n .uid = some attr.uid
  gid : db.u32 n .gid = some attr.gid
  block_size : db.u32 n .block_size = some attr.blksize
  blocks : attr.blksize ≠ 0 ∧ attr.size + attr.blksize.toNat < 2 ^ 64 ∧
    attr.blocks = (attr.size + attr.blksize.toNat - 1) / attr.blksize.toNat
  atime : (db.get n Field.atime.key).bind dbfs_time_spec = some attr.atime
  mtime : (db.get n Field.mtime.key).bind dbfs_time_spec = some attr.mtime
  ctime : (db.get n Field.ctime.key).bind dbfs_time_spec = some attr.ctime
  rdev : if IsDevice attr.kind then db.u32 n .dev = some attr.rdev else attr.rdev = 0
  rest : attr.ino = n ∧ attr.crtime = .default ∧ attr.padding = 0 ∧ attr.flags = 0

/-- The read of the attributes, once for all its uses. -/
theorem attr_tx_iff {n : UInt64} {db db' : Db} {attr : DbfsAttr} :
    attr_tx n db = .Ok (attr, db') ↔ ShowsAttr db n attr ∧ db' = db := by
  simp only [attr_tx, bind_ok, get_bucket_ok, read_usize_ok, read_u16_ok, unwrap_ok_iff,
    read_u32_ok, add_usize_ok, sub_usize_ok, assert_ok, bne_iff_ne, read_time_ok, ite_ok, pure_ok,
    ↓existsAndEq, true_and, and_true, exists_const, not_or]
  constructor
  · rintro ⟨_, size, hsize, mode, hmode, kind, hkind, links, hlinks, uid, huid, gid, hgid, blksize,
      hblk, hlt, _, hne, atime, ha, mtime, hm, ctime, hc, hdev⟩
    rcases hdev with ⟨hty, rdev, hrdev, rfl, rfl⟩ | ⟨hty, rfl, rfl⟩
    · exact ⟨⟨hsize, hmode, hkind, hlinks, huid, hgid, hblk, ⟨hne, hlt, rfl⟩, ha, hm, hc,
        (if_pos hty).mpr hrdev, rfl, rfl, rfl, rfl⟩, rfl⟩
    · have hty' : ¬ IsDevice kind := not_or.mpr hty
      exact ⟨⟨hsize, hmode, hkind, hlinks, huid, hgid, hblk, ⟨hne, hlt, rfl⟩, ha, hm, hc,
        (if_neg hty').mpr rfl, rfl, rfl, rfl, rfl⟩, rfl⟩
  · rintro ⟨h, rfl⟩
    obtain ⟨ino, size, blocks, atime, mtime, ctime, crtime, kind, perm, nlink, uid, gid, rdev,
      blksize, padding, flags⟩ := attr
    obtain ⟨rfl, rfl, rfl, rfl⟩ : ino = n ∧ crtime = .default ∧ padding = 0 ∧ flags = 0 := h.rest
    obtain ⟨hne, hlt, rfl⟩ : blksize ≠ 0 ∧ size + blksize.toNat < 2 ^ 64 ∧
      blocks = (size + blksize.toNat - 1) / blksize.toNat := h.blocks
    have hpos : blksize.toNat ≠ 0 := fun e => hne (UInt32.toNat_inj.mp e)
    refine ⟨Db.has_of_u16 h.mode, size, h.size, perm, h.mode, kind, h.kind, nlink, h.hard_links,
      uid, h.uid, gid, h.gid, blksize, h.block_size, hlt, by omega, hne, atime, h.atime, mtime,
      h.mtime, ctime, h.ctime, ?_⟩
    by_cases hty : IsDevice kind
    · exact .inl ⟨hty, rdev, (if_pos hty).mp h.rdev, rfl, rfl⟩
    · obtain rfl : rdev = 0 := (if_neg hty).mp h.rdev
      exact .inr ⟨not_or.mp hty, rfl, rfl⟩

namespace inode

variable {db db' : Db} {uid gid : UInt32} {name : String} {t : DbfsTimeSpec} {u : Unit}

/-! ## Link -/

theorem attr_tx_spec {n : UInt64} {attr : DbfsAttr} (h : attr_tx n db = .Ok (attr, db')) :
    db' = db ∧ db.u32 n .uid = some attr.uid ∧ db.u32 n .gid = some attr.gid ∧
      db.u16 n .mode = some attr.perm ∧ db.usize n .size = some attr.size ∧
      DbfsFileType.from attr.perm = some attr.kind := by
  obtain ⟨hs, rfl⟩ := attr_tx_iff.mp h
  exact ⟨rfl, hs.uid, hs.gid, hs.mode, hs.size, hs.kind⟩

theorem link_tx_spec {ino new_ino : UInt64} (h : link_tx ino new_ino name t db = .Ok (u, db')) :
    ∃ size links, db.Has ino ∧ db.usize new_ino .size = some size ∧ size + 1 < 2 ^ 64 ∧
      db.u32 ino .hard_links = some links ∧ links.toNat + 1 < 2 ^ 32 ∧
      db' = (((((db.put new_ino (generate_data_key name) (ino_bytes ino)).put new_ino
        Field.size.key (be_usize (size + 1))).put new_ino Field.ctime.key t.to_be_bytes).put
        new_ino Field.mtime.key t.to_be_bytes).put ino Field.hard_links.key
        (be_u32 (links + 1))).put ino Field.ctime.key t.to_be_bytes := by
  simp [link_tx] at h
  obtain ⟨_, size, hsize, hlt, _, hino, links, hlinks, hlt', _, rfl⟩ := h
  exact ⟨size, links, hino, hsize, hlt, hlinks, hlt', rfl⟩

/-- Link checked the permission in the state that its transaction then changed. -/
theorem link_spec {ino new_ino : UInt64} {s s' : Sys} {attr : DbfsAttr}
    (h : dbfs_common_link uid gid ino new_ino name t s = (.Ok attr, s')) :
    s.db.Grants new_ino uid gid ∧
      ∃ db', link_tx ino new_ino name t s.db = .Ok ((), db') ∧ s' = { s with db := db' } := by
  simp only [dbfs_common_link, Fs.bind_ok, Fs.map_err_ok, dbfs_common_attr, Fs.read_ok,
    Fs.ensure_ok, Fs.write_ok] at h
  obtain ⟨a, _, ⟨⟨_, hattr⟩, rfl⟩, _, _, ⟨hacc, rfl⟩, _, _, ⟨db', htx, rfl⟩, _, rfl⟩ := h
  obtain ⟨_, huid, hgid, hmode, _, _⟩ := attr_tx_spec hattr
  exact ⟨⟨a.uid, a.gid, a.perm, huid, hgid, hmode, hacc⟩, db', htx, rfl⟩

/-- Link changes the database by its transaction or not at all. -/
theorem link_db (ino new_ino : UInt64) (s : Sys) :
    (dbfs_common_link uid gid ino new_ino name t s).2.db = s.db ∨
      link_tx ino new_ino name t s.db =
        .Ok ((), (dbfs_common_link uid gid ino new_ino name t s).2.db) := by
  unfold dbfs_common_link dbfs_common_attr
  rw [Fs.map_err_read, Fs.bind_read]
  split
  · rw [Fs.bind_ensure]
    split_ifs
    · rw [Fs.bind_write]
      split
      · rename_i htx
        rw [Fs.map_err_read, Fs.read_state]
        exact .inr htx
      · exact .inl rfl
      · exact .inl rfl
    · exact .inl rfl
  · exact .inl rfl
  · exact .inl rfl

/-! ## Create -/

/-- The set-id bits that create changes leave the type. -/
theorem new_mode_type (uid : UInt32) (p_mode permission : DbfsPermission) :
    new_mode uid p_mode permission &&& DbfsPermission.S_IFMT =
      permission &&& DbfsPermission.S_IFMT := by
  have hgid := fun p => DbfsPermission.and_remove p (q := DbfsPermission.S_ISGID)
    (r := DbfsPermission.S_IFMT) (by decide)
  have huid := fun p => DbfsPermission.and_remove p (q := DbfsPermission.S_ISUID)
    (r := DbfsPermission.S_IFMT) (by decide)
  have hor := fun p => DbfsPermission.and_or p (q := DbfsPermission.S_ISGID)
    (r := DbfsPermission.S_IFMT) (by decide)
  unfold new_mode
  split_ifs <;> simp only [hor, hgid, huid]

section types

variable {permission : DbfsPermission} {ty : DbfsFileType}
  (hty : permission &&& DbfsPermission.S_IFMT = ty.bits)

include hty

/-- The bit of a directory is set in three of the seven types. -/
theorem contains_dir_bit : permission.contains DbfsPermission.S_IFDIR = true ↔
    ty = .Directory ∨ ty = .Socket ∨ ty = .BlockDevice := by
  rw [DbfsPermission.contains_type permission (by decide), hty]
  cases ty <;> decide

theorem new_counts_of_type {target_path : Option String} {dev : Option UInt32}
    {counts : UInt32 × Nat × Option UInt32}
    (h : new_counts permission target_path dev = some counts) :
    (ty = .Directory → counts = (2, 2, none)) ∧ (ty ≠ .Directory → counts.1 = 1) ∧
      (ty = .RegularFile → counts = (1, 0, none)) := by
  unfold new_counts at h
  rw [DbfsPermission.contains_type permission (q := DbfsPermission.S_IFSOCK) (by decide),
    DbfsPermission.contains_type permission (q := DbfsPermission.S_IFCHR) (by decide),
    DbfsPermission.contains_type permission (q := DbfsPermission.S_IFBLK) (by decide),
    DbfsPermission.contains_type permission (q := DbfsPermission.S_IFIFO) (by decide),
    DbfsPermission.contains_type permission (q := DbfsPermission.S_IFDIR) (by decide),
    DbfsPermission.contains_type permission (q := DbfsPermission.S_IFLNK) (by decide), hty] at h
  cases ty <;> simp +decide at h <;> simp [← h]

end types

/-- The fields that every new inode gets. -/
def new_fields [Features] (uid gid : UInt32) (t : DbfsTimeSpec) (links : UInt32) (size : Nat) :
    List (Bytes × Bytes) :=
  [(Field.size.key, be_usize size), (Field.hard_links.key, be_u32 links),
    (Field.uid.key, be_u32 uid), (Field.gid.key, be_u32 gid),
    (Field.atime.key, t.to_be_bytes), (Field.mtime.key, t.to_be_bytes),
    (Field.ctime.key, t.to_be_bytes), (Field.block_size.key, be_u32 (UInt32.ofNat SLICE_SIZE))]

section new

variable [Features] {n dir : UInt64} {mode permission : DbfsPermission}
  {target_path : Option String} {dev : Option UInt32} {counts : UInt32 × Nat × Option UInt32}

/-- The bucket of a new inode: its number was free, and after the mode come the dots, the fields,
the target of a symbolic link and the device. -/
theorem new_inode_tx_ok
    (h : new_inode_tx n dir uid gid t mode permission target_path dev db = .Ok (counts, db')) :
    ¬ db.Has n ∧ new_counts permission target_path dev = some counts ∧
      ∃ target, new_target permission target_path = some target ∧
        db' = (((((db.create n).put n Field.mode.key (be_u16 mode)).puts n
          (new_dots permission n dir)).puts n (new_fields uid gid t counts.1 counts.2.1)).puts n
          target).puts n (counts.2.2.toList.map fun d => (Field.dev.key, be_u32 d)) := by
  simp [new_inode_tx] at h
  obtain ⟨hn, links, size, dev', hcounts, target, htarget, rfl, rfl⟩ := h
  exact ⟨hn, hcounts, target, htarget, rfl⟩

theorem new_inode_tx_eq
    (h : new_inode_tx n dir uid gid t mode permission target_path dev db = .Ok (counts, db')) :
    ¬ db.Has n ∧ new_counts permission target_path dev = some counts ∧
      ∃ target : List (Bytes × Bytes), (∀ kv ∈ target, kv.1 = Field.data.key) ∧
        db' = (((((db.create n).put n Field.mode.key (be_u16 mode)).puts n
          (new_dots permission n dir)).puts n (new_fields uid gid t counts.1 counts.2.1)).puts n
          target).puts n (counts.2.2.toList.map fun d => (Field.dev.key, be_u32 d)) := by
  obtain ⟨hn, hcounts, target, htarget, rfl⟩ := new_inode_tx_ok h
  refine ⟨hn, hcounts, target, ?_, rfl⟩
  unfold new_target at htarget
  split_ifs at htarget
  · obtain ⟨target', _, rfl⟩ := Option.map_eq_some_iff.mp htarget
    simp
  · cases htarget
    simp

omit [Features] in
theorem get_puts_dots (A : Db) (f : Field) :
    (A.puts n (new_dots permission n dir)).get n f.key = A.get n f.key := by
  unfold new_dots
  split_ifs <;> simp

omit [Features] in
/-- Neither the target nor the device touches the other fields or the entries. -/
theorem get_puts_target {target : List (Bytes × Bytes)} (dev : Option UInt32)
    (h : ∀ kv ∈ target, kv.1 = Field.data.key) (A : Db) {k : Bytes} (hdata : k ≠ Field.data.key)
    (hdev : k ≠ Field.dev.key) :
    ((A.puts n target).puts n (dev.toList.map fun d => (Field.dev.key, be_u32 d))).get n k =
      A.get n k := by
  have hdev_keys : ∀ kv ∈ dev.toList.map fun d => (Field.dev.key, be_u32 d),
      kv.1 = Field.dev.key := by
    intro kv hkv
    obtain ⟨d, _, rfl⟩ := List.mem_map.mp hkv
    rfl
  rw [Db.get_puts_of_key_ne _ _ _ fun kv hkv => by rw [hdev_keys kv hkv]; exact hdev,
    Db.get_puts_of_key_ne _ _ _ fun kv hkv => by rw [h kv hkv]; exact hdata]

/-- The bucket of a new inode: its number was free, no other bucket is touched, and its
entries are the dots of `new_dots`. -/
theorem new_inode_tx_spec
    (h : new_inode_tx n dir uid gid t mode permission target_path dev db = .Ok (counts, db')) :
    ¬ db.Has n ∧ new_counts permission target_path dev = some counts ∧
      (∀ m, db'.Has m ↔ m = n ∨ db.Has m) ∧ (∀ m k, m ≠ n → db'.get m k = db.get m k) ∧
      db'.u16 n .mode = some mode ∧ db'.usize n .size = common.usize (be_usize counts.2.1) ∧
      db'.u32 n .hard_links = some counts.1 ∧
      ∀ k, (∀ f : Field, k ≠ f.key) →
        db'.get n k = ((db.create n).puts n (new_dots permission n dir)).get n k := by
  obtain ⟨hn, hcounts, target, htarget, rfl⟩ := new_inode_tx_eq h
  refine ⟨hn, hcounts, fun m => by simp, fun m k hm => ?_, ?_, ?_, ?_, fun k hk => ?_⟩
  · simp only [Db.get_puts_of_name_ne _ _ hm, Db.get_put, Db.get_create, hm, false_and, if_false]
  · rw [Db.u16, get_puts_target _ htarget _ (by simp) (by simp)]
    simp [new_fields, get_puts_dots]
  · rw [Db.usize, get_puts_target _ htarget _ (by simp) (by simp)]
    simp [new_fields]
  · rw [Db.u32, get_puts_target _ htarget _ (by simp) (by simp)]
    simp [new_fields]
  · rw [get_puts_target _ htarget _ (hk _) (hk _)]
    unfold new_dots
    split_ifs
    · simp [new_fields, hk]
    · simp [new_fields, hk]

/-- The other fields of a new inode. -/
theorem new_inode_tx_fields
    (h : new_inode_tx n dir uid gid t mode permission target_path dev db = .Ok (counts, db')) :
    db'.u32 n .uid = some uid ∧ db'.u32 n .gid = some gid ∧
      db'.u32 n .block_size = some (UInt32.ofNat SLICE_SIZE) ∧
      db'.get n Field.atime.key = some t.to_be_bytes ∧
      db'.get n Field.mtime.key = some t.to_be_bytes ∧
      db'.get n Field.ctime.key = some t.to_be_bytes ∧
      ∀ d, counts.2.2 = some d → db'.u32 n .dev = some d := by
  obtain ⟨_, _, target, htarget, rfl⟩ := new_inode_tx_eq h
  refine ⟨?_, ?_, ?_, ?_, ?_, ?_, fun d hd => ?_⟩
  · rw [Db.u32, get_puts_target _ htarget _ (by simp) (by simp)]
    simp [new_fields]
  · rw [Db.u32, get_puts_target _ htarget _ (by simp) (by simp)]
    simp [new_fields]
  · rw [Db.u32, get_puts_target _ htarget _ (by simp) (by simp)]
    simp [new_fields]
  · rw [get_puts_target _ htarget _ (by simp) (by simp)]
    simp [new_fields]
  · rw [get_puts_target _ htarget _ (by simp) (by simp)]
    simp [new_fields]
  · rw [get_puts_target _ htarget _ (by simp) (by simp)]
    simp [new_fields]
  · simp [hd]

end new

/-- What create does to the directory before it makes the inode. -/
def create_entry (db : Db) (dir : UInt64) (name : String) (n : UInt64) (size : Nat)
    (t : DbfsTimeSpec) : Db :=
  (((db.put dir Field.size.key (be_usize (size + 1))).put dir (generate_data_key name)
    (ino_bytes n)).put dir Field.ctime.key t.to_be_bytes).put dir Field.mtime.key t.to_be_bytes

theorem create_tx_ok [Features] {n dir : UInt64} {permission : DbfsPermission}
    {target_path : Option String} {dev : Option UInt32}
    {r : UInt32 × DbfsPermission × UInt32 × Nat × Option UInt32}
    (h : create_tx n dir name uid gid t permission target_path dev db = .Ok (r, db')) :
    db.Grants dir uid gid ∧ ∃ p_gid p_mode size counts, db.u32 dir .gid = some p_gid ∧
      db.u16 dir .mode = some p_mode ∧ db.usize dir .size = some size ∧ size + 1 < 2 ^ 64 ∧
      new_inode_tx n dir uid (creation_gid p_gid permission gid) t (new_mode uid p_mode permission)
        permission target_path dev (create_entry db dir name n size t) = .Ok (counts, db') ∧
      r = (creation_gid p_gid permission gid, new_mode uid p_mode permission, counts) := by
  simp [create_tx] at h
  obtain ⟨_, p_uid, huid, p_gid, hgid, p_mode, hmode, hacc, size, hsize, hlt, _, a, b, c, hnew,
    hr⟩ := h
  exact ⟨⟨p_uid, p_gid, p_mode, huid, hgid, hmode, hacc⟩, p_gid, p_mode, size, (a, b, c), hgid,
    hmode, hsize, hlt, hnew, hr⟩

theorem create_tx_spec [Features] {n dir : UInt64} {permission : DbfsPermission}
    {target_path : Option String} {dev : Option UInt32}
    {r : UInt32 × DbfsPermission × UInt32 × Nat × Option UInt32}
    (h : create_tx n dir name uid gid t permission target_path dev db = .Ok (r, db')) :
    db.Grants dir uid gid ∧ ∃ p_gid p_mode size counts, db.u16 dir .mode = some p_mode ∧
      db.usize dir .size = some size ∧ size + 1 < 2 ^ 64 ∧
      new_inode_tx n dir uid (creation_gid p_gid permission gid) t (new_mode uid p_mode permission)
        permission target_path dev (create_entry db dir name n size t) = .Ok (counts, db') := by
  obtain ⟨hgrants, p_gid, p_mode, size, counts, _, hmode, hsize, hlt, hnew, _⟩ := create_tx_ok h
  exact ⟨hgrants, p_gid, p_mode, size, counts, hmode, hsize, hlt, hnew⟩

section create

variable [Features] (dir : UInt64) (permission : DbfsPermission) (target_path : Option String)
  (dev : Option UInt32) (s : Sys)

/-- Create takes a number off the counter whatever its end, and changes the database by its
transaction or not at all. -/
theorem create_state :
    (dbfs_common_create dir name uid gid t permission target_path dev s).2 =
      match create_tx s.DBFS_INODE_NUMBER dir name uid gid t permission target_path dev s.db with
      | .Ok (_, db') => { s with db := db', DBFS_INODE_NUMBER := s.DBFS_INODE_NUMBER + 1 }
      | _ => { s with DBFS_INODE_NUMBER := s.DBFS_INODE_NUMBER + 1 } := by
  unfold dbfs_common_create
  change ((Fs.write (create_tx s.DBFS_INODE_NUMBER dir name uid gid t permission target_path dev)
    >>= _) { s with DBFS_INODE_NUMBER := s.DBFS_INODE_NUMBER + 1 }).2 = _
  rw [Fs.bind_write]
  rcases create_tx s.DBFS_INODE_NUMBER dir name uid gid t permission target_path dev s.db with
    ⟨r, db'⟩ | e | _
  · rcases hkind : DbfsFileType.from permission with _ | kind <;> rfl
  · rfl
  · rfl

theorem create_db :
    (dbfs_common_create dir name uid gid t permission target_path dev s).2.db = s.db ∨
      ∃ r, create_tx s.DBFS_INODE_NUMBER dir name uid gid t permission target_path dev s.db =
        .Ok (r, (dbfs_common_create dir name uid gid t permission target_path dev s).2.db) := by
  rw [create_state]
  rcases create_tx s.DBFS_INODE_NUMBER dir name uid gid t permission target_path dev s.db with
    ⟨r, db'⟩ | e | _
  · exact .inr ⟨r, rfl⟩
  · exact .inl rfl
  · exact .inl rfl

variable {dir permission target_path dev s} in
theorem create_spec {attr : DbfsAttr} {s' : Sys}
    (h : dbfs_common_create dir name uid gid t permission target_path dev s = (.Ok attr, s')) :
    attr.ino = s.DBFS_INODE_NUMBER ∧
      ∃ r, create_tx s.DBFS_INODE_NUMBER dir name uid gid t permission target_path dev s.db =
        .Ok (r, s'.db) := by
  unfold dbfs_common_create at h
  change (Fs.write (create_tx s.DBFS_INODE_NUMBER dir name uid gid t permission target_path dev)
    >>= _) { s with DBFS_INODE_NUMBER := s.DBFS_INODE_NUMBER + 1 } = _ at h
  simp only [Fs.bind_ok, Fs.write_ok, Fs.unwrap_ok, Fs.pure_ok] at h
  obtain ⟨r, _, ⟨db', htx, rfl⟩, _, _, ⟨_, rfl⟩, rfl, rfl⟩ := h
  exact ⟨rfl, r, htx⟩

end create

/-! ## Unlink and rmdir -/

/-- The inode is the one that is told, whatever the entry says, and else that of the entry. -/
theorem unlink_tx_spec {dir : UInt64} {ino : Option UInt64}
    (h : unlink_tx uid gid dir name ino t db = .Ok (u, db')) :
    db.Grants dir uid gid ∧ ∃ i size links, ino.or (db.entry dir name) = some i ∧
      db.MayTake dir i uid ∧
      db.usize dir .size = some size ∧ 1 ≤ size ∧ db.u32 i .hard_links = some links ∧
      ((links = 1 ∧ db' = ((((db.delete dir (generate_data_key name)).put dir Field.size.key
          (be_usize (size - 1))).put dir Field.ctime.key t.to_be_bytes).put dir Field.mtime.key
          t.to_be_bytes).drop i) ∨
       (links ≠ 1 ∧ 1 ≤ links ∧ db' = (((((db.delete dir (generate_data_key name)).put dir
          Field.size.key (be_usize (size - 1))).put dir Field.ctime.key t.to_be_bytes).put dir
          Field.mtime.key t.to_be_bytes).put i Field.hard_links.key (be_u32 (links - 1))).put i
          Field.ctime.key t.to_be_bytes)) := by
  rcases ino with _ | i
  · simp [unlink_tx] at h
    obtain ⟨_, value, hvalue, p_uid, huid, p_gid, hgid, p_mode, hmode, hacc, i, hi, _, i_uid, hiuid,
      hsticky, _, size, hsize, hpos, _, links, hlinks, hend⟩ := h
    refine ⟨⟨p_uid, p_gid, p_mode, huid, hgid, hmode, hacc⟩, i, size, links, ?_,
      ⟨p_uid, p_mode, i_uid, huid, hmode, hiuid, hsticky⟩, hsize, hpos, hlinks,
      hend.imp (fun e => ⟨e.1, e.2.2⟩) fun e => ⟨e.1, e.2.1, e.2.2.2⟩⟩
    rw [Option.none_or, Db.entry, Db.ref, hvalue]
    exact hi
  · simp [unlink_tx] at h
    obtain ⟨_, _, p_uid, huid, p_gid, hgid, p_mode, hmode, hacc, _, i_uid, hiuid, hsticky, _, size,
      hsize, hpos, _, links, hlinks, hend⟩ := h
    exact ⟨⟨p_uid, p_gid, p_mode, huid, hgid, hmode, hacc⟩, i, size, links, rfl,
      ⟨p_uid, p_mode, i_uid, huid, hmode, hiuid, hsticky⟩, hsize, hpos, hlinks,
      hend.imp (fun e => ⟨e.1, e.2.2⟩) fun e => ⟨e.1, e.2.1, e.2.2.2⟩⟩

theorem rmdir_tx_spec {dir : UInt64} (h : rmdir_tx uid gid dir name t db = .Ok (u, db')) :
    db.Grants dir uid gid ∧ ∃ i size i_size, db.entry dir name = some i ∧ db.MayTake dir i uid ∧
      db.usize i .size = some i_size ∧ i_size ≤ 2 ∧ db.usize dir .size = some size ∧ 1 ≤ size ∧
      db' = ((((db.put dir Field.mtime.key t.to_be_bytes).put dir Field.ctime.key
        t.to_be_bytes).delete dir (generate_data_key name)).put dir Field.size.key
        (be_usize (size - 1))).drop i := by
  simp [rmdir_tx] at h
  obtain ⟨_, value, hvalue, i, hi, _, i_size, hisize, hle, p_uid, huid, p_gid, hgid, p_mode, hmode,
    size, hsize, hacc, i_uid, hiuid, hsticky, _, _, hpos, _, _, rfl⟩ := h
  refine ⟨⟨p_uid, p_gid, p_mode, huid, hgid, hmode, hacc⟩, i, size, i_size, ?_,
    ⟨p_uid, p_mode, i_uid, huid, hmode, hiuid, hsticky⟩, hisize, hle, hsize, hpos, rfl⟩
  rw [Db.entry, Db.ref, hvalue]
  exact hi

/-! ## Rename -/

theorem rename_old_tx_spec {old_dir : UInt64} {old : RenameOld}
    (h : rename_old_tx uid gid old_dir name db = .Ok (old, db')) :
    db.Grants old_dir uid gid ∧ db.entry old_dir name = some old.number ∧ db.Has old.number ∧
      db.MayTake old_dir old.number uid ∧ db.u16 old.number .mode = some old.perm := by
  simp only [rename_old_tx, bind_ok, get_bucket_ok, get_kv_ok] at h
  obtain ⟨_, _, ⟨_, rfl⟩, value, _, ⟨_, hvalue, rfl⟩, h⟩ := h
  rcases value with _ | value
  · simp at h
  · simp at h
    obtain ⟨p_uid, huid, p_gid, hgid, p_mode, hmode, hacc, i, hi, hhas, i_uid, hiuid, hsticky, _, _,
      perm, ⟨hperm, _⟩, rfl⟩ := h
    refine ⟨⟨p_uid, p_gid, p_mode, huid, hgid, hmode, hacc⟩, ?_, hhas,
      ⟨p_uid, p_mode, i_uid, huid, hmode, hiuid, hsticky⟩, hperm⟩
    rw [Db.entry, Db.ref, ← hvalue]
    exact hi

/-- The new directory is looked at for a target only when it has the sticky bit. -/
theorem rename_new_tx_spec {new_dir : UInt64} {new : RenameNew}
    (h : rename_new_tx uid gid new_dir name db = .Ok (new, db')) :
    db.Grants new_dir uid gid ∧ ∃ p_mode, db.u16 new_dir .mode = some p_mode ∧
      (new.number = none ∧ (DbfsPermission.contains p_mode .S_ISVTX = true →
          db.get new_dir (generate_data_key name) = none) ∨
        ∃ i, new.number = some i ∧ db.entry new_dir name = some i ∧ db.MayTake new_dir i uid) := by
  simp only [rename_new_tx, bind_ok, get_bucket_ok, read_u32_ok, read_u16_ok, ensure_ok,
    get_kv_ok] at h
  obtain ⟨_, _, ⟨_, rfl⟩, p_uid, _, ⟨huid, rfl⟩, p_gid, _, ⟨hgid, rfl⟩, p_mode, _, ⟨hmode, rfl⟩,
    _, _, ⟨hacc, rfl⟩, value, _, ⟨_, hvalue, rfl⟩, h⟩ := h
  refine ⟨⟨p_uid, p_gid, p_mode, huid, hgid, hmode, hacc⟩, p_mode, hmode, ?_⟩
  rcases hseen : (if DbfsPermission.contains p_mode DbfsPermission.S_ISVTX then value else none)
    with _ | v
  · rw [hseen] at h
    simp at h
    refine .inl ⟨by rw [h.1], fun hsticky => ?_⟩
    rw [if_pos hsticky] at hseen
    rw [← hvalue, hseen]
  · rw [hseen] at h
    split_ifs at hseen with hsticky
    simp at h
    obtain ⟨i, hi, _, i_uid, hiuid, hdeny, _, _, _, ⟨_, _⟩, rfl⟩ := h
    refine .inr ⟨i, rfl, ?_, p_uid, p_mode, i_uid, huid, hmode, hiuid, ?_⟩
    · rw [Db.entry, Db.ref, ← hvalue, hseen]
      exact hi
    · simp only [sticky_ok, hsticky, Bool.true_and]
      simpa using hdeny

/-- What rename knows about the target that it saw. -/
theorem rename_new_tx_target {new_dir i : UInt64} {new : RenameNew}
    (h : rename_new_tx uid gid new_dir name db = .Ok (new, db')) (hi : new.number = some i) :
    db.Has i ∧ db.u16 i .mode = some new.perm ∧ db.usize i .size = some new.size ∧
      ∃ p_mode, db.u16 new_dir .mode = some p_mode ∧
        DbfsPermission.contains p_mode .S_ISVTX = true := by
  simp only [rename_new_tx, bind_ok, get_bucket_ok, read_u32_ok, read_u16_ok, ensure_ok,
    get_kv_ok] at h
  obtain ⟨_, _, ⟨_, rfl⟩, _, _, ⟨_, rfl⟩, _, _, ⟨_, rfl⟩, p_mode, _, ⟨hmode, rfl⟩,
    _, _, ⟨_, rfl⟩, value, _, ⟨_, _, rfl⟩, h⟩ := h
  rcases hseen : (if DbfsPermission.contains p_mode DbfsPermission.S_ISVTX then value else none)
    with _ | v
  · rw [hseen] at h
    simp at h
    rw [h.1] at hi
    cases hi
  · rw [hseen] at h
    split_ifs at hseen with hsticky
    simp at h
    obtain ⟨j, _, hhas, _, _, _, perm, hperm, size, ⟨hsize, _⟩, rfl⟩ := h
    cases hi
    exact ⟨hhas, hperm, hsize, p_mode, hmode, hsticky⟩

section rename

variable {old_dir new_dir : UInt64} {old_name new_name : String} {old : RenameOld}
  {new : RenameNew}

@[simp]
theorem rename_size_ok {size c : Nat} :
    rename_size old_dir new_dir size db = .Ok (c, db') ↔ (old_dir ≠ new_dir → size + 1 < 2 ^ 64) ∧
      c = (if old_dir = new_dir then size else size + 1) ∧ db' = db := by
  unfold rename_size
  split_ifs with h
  · simp [h]
  · simp [h]

/-- The move of entry `i` when rename saw nothing to replace. -/
def rename_moved (db : Db) (old_dir : UInt64) (old_name : String) (new_dir : UInt64)
    (new_name : String) (old : RenameOld) (old_size new_size : Nat) (t : DbfsTimeSpec) : Db :=
  (((((((((db.delete old_dir (generate_data_key old_name)).put old_dir Field.size.key
    (be_usize (old_size - 1))).put new_dir (generate_data_key new_name)
    (ino_bytes old.number)).put new_dir Field.size.key
    (be_usize (if old_dir = new_dir then new_size else new_size + 1))).put old_dir
    Field.ctime.key t.to_be_bytes).put old_dir Field.mtime.key t.to_be_bytes).put new_dir
    Field.ctime.key t.to_be_bytes).put new_dir Field.mtime.key t.to_be_bytes).put old.number
    Field.ctime.key t.to_be_bytes).put_if (old.perm.contains DbfsPermission.S_IFDIR) old.number
    (generate_data_key "..") (ino_bytes new_dir)

theorem rename_move_tx_spec (hnone : new.number = none)
    (h : rename_move_tx old_dir old_name new_dir new_name old new t db = .Ok (u, db')) :
    ∃ old_size new_size, db.usize old_dir .size = some old_size ∧ 1 ≤ old_size ∧
      db.usize new_dir .size = some new_size ∧ (old_dir ≠ new_dir → new_size + 1 < 2 ^ 64) ∧
      db' = rename_moved db old_dir old_name new_dir new_name old old_size new_size t := by
  simp [rename_move_tx, hnone] at h
  obtain ⟨_, _, new_size, hnew, _, old_size, hold, hpos, _, _, hlt, _, _, _, _, _, rfl⟩ := h
  exact ⟨old_size, new_size, hold, hpos, hnew, hlt, rfl⟩

/-- A replaced target without the bit of a directory must have its link count in eight bytes. -/
theorem rename_replace_tx_eq {number : UInt64} {perm : DbfsPermission} {size c : Nat}
    (h : rename_replace_tx new_dir new_name number perm size t db = .Ok (c, db')) :
    1 ≤ size ∧ c = size - 1 ∧
      (perm.contains DbfsPermission.S_IFDIR = true ∧
          db' = (db.delete new_dir (generate_data_key new_name)).drop number ∨
        perm.contains DbfsPermission.S_IFDIR = false ∧ ∃ links,
          db.usize number .hard_links = some links ∧
            (db' = (db.delete new_dir (generate_data_key new_name)).drop number ∨
              db' = ((db.delete new_dir (generate_data_key new_name)).put number
                Field.hard_links.key (be_usize (links - 1))).put number Field.ctime.key
                t.to_be_bytes)) := by
  simp [rename_replace_tx] at h
  obtain ⟨_, hle, ⟨hbit, ⟨_, rfl⟩, rfl⟩ | ⟨hbit, _, links, hlinks, _, h⟩⟩ := h
  · exact ⟨hle, rfl, .inl ⟨hbit, rfl⟩⟩
  · rcases h with ⟨_, ⟨_, rfl⟩, rfl⟩ | ⟨_, _, ⟨_, rfl⟩, rfl⟩
    · exact ⟨hle, rfl, .inr ⟨hbit, links, hlinks, .inl rfl⟩⟩
    · exact ⟨hle, rfl, .inr ⟨hbit, links, hlinks, .inr rfl⟩⟩

/-- The move takes the target away first and then goes on as if there had been none. -/
theorem rename_move_tx_eq
    (h : rename_move_tx old_dir old_name new_dir new_name old new t db = .Ok (u, db')) :
    ∃ db₁ new_size old_size,
      (new.number = none → db₁ = db ∧ db.usize new_dir .size = some new_size) ∧
      (∀ number, new.number = some number → ∃ size, db.usize new_dir .size = some size ∧
        rename_replace_tx new_dir new_name number new.perm size t db = .Ok (new_size, db₁)) ∧
      (db₁.get old_dir (generate_data_key old_name)).isSome = true ∧
      db₁.usize old_dir .size = some old_size ∧ 1 ≤ old_size ∧
      (old_dir ≠ new_dir → new_size + 1 < 2 ^ 64) ∧ db₁.Has new_dir ∧ db₁.Has old.number ∧
      db' = rename_moved db₁ old_dir old_name new_dir new_name old old_size new_size t := by
  rcases hn : new.number with _ | number
  · simp [rename_move_tx, hn] at h
    obtain ⟨_, hnd, new_size, hnew, hentry, old_size, hold, hpos, _, _, hlt, _, _, _, hhas, _,
      rfl⟩ := h
    exact ⟨db, new_size, old_size, fun _ => ⟨rfl, hnew⟩, fun _ e => (nomatch e), hentry, hold, hpos,
      hlt, hnd, hhas, rfl⟩
  · simp [rename_move_tx, hn] at h
    obtain ⟨_, _, size, hsize, c, db₁, hrep, hentry, old_size, hold, hpos, _, hnd, hlt, _, _, _,
      hhas, _, rfl⟩ := h
    refine ⟨db₁, c, old_size, fun e => (nomatch e), fun m e => ?_, hentry, hold, hpos, hlt, hnd,
      hhas, rfl⟩
    cases e
    exact ⟨size, hsize, hrep⟩

/-- The exchange of two entries. -/
def rename_exchanged (db : Db) (old_dir : UInt64) (old_name : String) (new_dir : UInt64)
    (new_name : String) (old : RenameOld) (new_number : UInt64) (new_perm : DbfsPermission)
    (t : DbfsTimeSpec) : Db :=
  (((((((((db.put new_dir (generate_data_key new_name) (ino_bytes old.number)).put old_dir
    (generate_data_key old_name) (ino_bytes new_number)).put old_dir Field.ctime.key
    t.to_be_bytes).put old_dir Field.mtime.key t.to_be_bytes).put new_dir Field.ctime.key
    t.to_be_bytes).put new_dir Field.mtime.key t.to_be_bytes).put old.number Field.ctime.key
    t.to_be_bytes).put new_number Field.ctime.key t.to_be_bytes).put_if
    (old.perm.contains DbfsPermission.S_IFDIR) old.number (generate_data_key ".")
    (ino_bytes new_dir)).put_if (new_perm.contains DbfsPermission.S_IFDIR) new_number
    (generate_data_key "..") (ino_bytes old_dir)

theorem rename_exchange_tx_eq {new_number : UInt64} {perm : DbfsPermission}
    (h : rename_exchange_tx old_dir old_name new_dir new_name old new_number perm t db =
      .Ok (u, db')) :
    db' = rename_exchanged db old_dir old_name new_dir new_name old new_number perm t := by
  simp [rename_exchange_tx] at h
  obtain ⟨_, _, _, _, _, _, _, _, rfl⟩ := h
  rfl

/-- The target that is replaced leaves the names of every bucket that stays, but its own. -/
theorem rename_replace_tx_names {number : UInt64} {perm : DbfsPermission} {size c : Nat}
    (h : rename_replace_tx new_dir new_name number perm size t db = .Ok (c, db')) {m : UInt64}
    {k : Bytes} (hm : db'.Has m) (hk : is_data_key k = true)
    (hnew : ¬ (m = new_dir ∧ k = generate_data_key new_name)) :
    db.Has m ∧ db'.get m k = db.get m k := by
  have hne : ∀ f : Field, k ≠ f.key := fun f => ne_of_is_data_key hk (by simp)
  simp [rename_replace_tx] at h
  obtain ⟨_, _, ⟨_, ⟨_, rfl⟩, _⟩ | ⟨_, _, _, _, _, ⟨_, ⟨_, rfl⟩, _⟩ | ⟨_, _, ⟨_, rfl⟩, _⟩⟩⟩ := h
  · simp at hm
    simp [hm, hnew]
  · simp at hm
    simp [hm, hnew]
  · simp at hm
    simp [hm, hnew, hne]

theorem rename_move_tx_names
    (h : rename_move_tx old_dir old_name new_dir new_name old new t db = .Ok (u, db'))
    {m : UInt64} {k : Bytes} (hm : db'.Has m) (hk : is_data_key k = true)
    (hdd : k ≠ generate_data_key "..") (hold : ¬ (m = old_dir ∧ k = generate_data_key old_name))
    (hnew : ¬ (m = new_dir ∧ k = generate_data_key new_name)) :
    db.Has m ∧ db'.get m k = db.get m k := by
  have hne : ∀ f : Field, k ≠ f.key := fun f => ne_of_is_data_key hk (by simp)
  rcases hn : new.number with _ | number
  · obtain ⟨old_size, new_size, _, _, _, _, rfl⟩ := rename_move_tx_spec hn h
    simp [rename_moved] at hm
    simp [rename_moved, hm, hold, hne, hdd]
    exact fun h1 h2 => absurd ⟨h1, h2⟩ hnew
  · simp [rename_move_tx, hn] at h
    obtain ⟨_, _, size, _, c, db₁, hrep, _, old_size, _, _, _, _, _, _, _, _, _, _, rfl⟩ := h
    simp at hm
    obtain ⟨hm', hget⟩ := rename_replace_tx_names hrep hm hk hnew
    simp [hm', hold, hne, hdd, hget]
    exact fun h1 h2 => absurd ⟨h1, h2⟩ hnew

theorem rename_exchange_tx_names {new_number : UInt64} {perm : DbfsPermission}
    (h : rename_exchange_tx old_dir old_name new_dir new_name old new_number perm t db =
      .Ok (u, db')) {m : UInt64} {k : Bytes} (hm : db'.Has m) (hk : is_data_key k = true)
    (hdot : k ≠ generate_data_key ".") (hdd : k ≠ generate_data_key "..")
    (hold : ¬ (m = old_dir ∧ k = generate_data_key old_name))
    (hnew : ¬ (m = new_dir ∧ k = generate_data_key new_name)) :
    db.Has m ∧ db'.get m k = db.get m k := by
  have hne : ∀ f : Field, k ≠ f.key := fun f => ne_of_is_data_key hk (by simp)
  simp [rename_exchange_tx] at h
  obtain ⟨_, _, _, _, _, _, _, _, rfl⟩ := h
  simp at hm
  simp only [Db.get_put_if, Db.get_put, hne, hdot, hdd, false_and, and_false, if_false, hm,
    true_and]
  rw [if_neg (fun e => hold ⟨e.1, e.2.1⟩), if_neg (fun e => hnew ⟨e.1, e.2.1⟩)]

/-- Rename reads twice and then runs one transaction on what it read. -/
theorem rename_spec {flags : UInt32} {s s' : Sys}
    (h : dbfs_common_rename uid gid old_dir old_name new_dir new_name flags t s = (.Ok u, s')) :
    ∃ old new, (∃ db₁, rename_old_tx uid gid old_dir old_name s.db = .Ok (old, db₁)) ∧
      (∃ db₁, rename_new_tx uid gid new_dir new_name s.db = .Ok (new, db₁)) ∧
      ((∃ number, new.number = some number ∧ rename_exchange_tx old_dir old_name new_dir new_name
          old number new.perm t s.db = .Ok (u, s'.db)) ∨
        rename_move_tx old_dir old_name new_dir new_name old new t s.db = .Ok (u, s'.db)) := by
  simp only [dbfs_common_rename, Fs.bind_ok, Fs.read_ok] at h
  obtain ⟨old, _, ⟨hold, rfl⟩, new, _, ⟨hnew, rfl⟩, h⟩ := h
  refine ⟨old, new, hold, hnew, ?_⟩
  split_ifs at h
  · rcases hn : new.number with _ | number
    · simp [hn] at h
    · simp only [hn, Fs.write_ok] at h
      obtain ⟨db', htx, rfl⟩ := h
      exact .inl ⟨number, rfl, htx⟩
  · simp only [Fs.bind_ok, Fs.ensure_ok, Fs.write_ok] at h
    obtain ⟨_, _, ⟨_, rfl⟩, _, _, ⟨_, rfl⟩, db', htx, rfl⟩ := h
    exact .inr htx

/-- Rename changes the database by one transaction on what it read, or not at all. -/
theorem rename_state (old_dir new_dir : UInt64) (old_name new_name : String) (flags : UInt32)
    (s : Sys) : (dbfs_common_rename uid gid old_dir old_name new_dir new_name flags t s).2 = s ∨
      ∃ old new db', (∃ db₁, rename_old_tx uid gid old_dir old_name s.db = .Ok (old, db₁)) ∧
        (∃ db₁, rename_new_tx uid gid new_dir new_name s.db = .Ok (new, db₁)) ∧
        (dbfs_common_rename uid gid old_dir old_name new_dir new_name flags t s).2 =
          { s with db := db' } ∧
        (flags &&& RENAME_EXCHANGE ≠ 0 ∧ (∃ number, new.number = some number ∧
            rename_exchange_tx old_dir old_name new_dir new_name old number new.perm t s.db =
              .Ok ((), db')) ∨
          flags &&& RENAME_EXCHANGE = 0 ∧ ((new.number.isSome = true →
              new.perm.contains DbfsPermission.S_IFDIR = true →
              new.size ≤ 2) ∧
            rename_move_tx old_dir old_name new_dir new_name old new t s.db = .Ok ((), db'))) := by
  unfold dbfs_common_rename
  rw [Fs.bind_read]
  rcases hold : rename_old_tx uid gid old_dir old_name s.db with ⟨old, db₁⟩ | e | _
  · simp only [Fs.bind_read]
    rcases hnew : rename_new_tx uid gid new_dir new_name s.db with ⟨new, db₂⟩ | e | _
    · simp only
      split_ifs with hflags
      · rcases hn : new.number with _ | number
        · exact .inl rfl
        · rcases Fs.write_state (rename_exchange_tx old_dir old_name new_dir new_name old number
            new.perm t) s with h | ⟨_, db', htx, h⟩
          · exact .inl h
          · exact .inr ⟨old, new, db', ⟨db₁, rfl⟩, ⟨db₂, rfl⟩, congrArg Prod.snd h,
              .inl ⟨hflags, number, hn, htx⟩⟩
      · simp only [Fs.bind_ensure]
        split_ifs with hempty hacc
        · rcases Fs.write_state (rename_move_tx old_dir old_name new_dir new_name old new t) s with
            h | ⟨_, db', htx, h⟩
          · exact .inl h
          · refine .inr ⟨old, new, db', ⟨db₁, rfl⟩, ⟨db₂, rfl⟩, congrArg Prod.snd h,
              .inr ⟨not_not.mp hflags, fun h1 h2 => ?_, htx⟩⟩
            simpa [h1, h2] using hempty
        · exact .inl rfl
        · exact .inl rfl
    · exact .inl rfl
    · exact .inl rfl
  · exact .inl rfl
  · exact .inl rfl

/-- Without exchange, rename changes the database by its move or not at all. -/
theorem rename_db {s : Sys} :
    (dbfs_common_rename uid gid old_dir old_name new_dir new_name 0 t s).2.db = s.db ∨
      ∃ old new, (∃ db₁, rename_old_tx uid gid old_dir old_name s.db = .Ok (old, db₁)) ∧
        (∃ db₁, rename_new_tx uid gid new_dir new_name s.db = .Ok (new, db₁)) ∧
        rename_move_tx old_dir old_name new_dir new_name old new t s.db =
          .Ok ((), (dbfs_common_rename uid gid old_dir old_name new_dir new_name 0 t s).2.db) := by
  rcases rename_state old_dir new_dir old_name new_name 0 s with
    h | ⟨old, new, db', hold, hnew, h, ⟨hflags, _⟩ | ⟨_, _, htx⟩⟩
  · exact .inl (by rw [h])
  · exact absurd (UInt32.zero_and ..) hflags
  · exact .inr ⟨old, new, hold, hnew, by rw [h]; exact htx⟩

end rename

end inode

end dbfs2
