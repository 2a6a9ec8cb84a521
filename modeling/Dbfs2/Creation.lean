-- What create stores for a new inode: the group and the set-gid bit that should come
-- from its parent, and the counts, dots, target and device that should come from its
-- type. The tests of the code are for single bits, which several types share.
import Dbfs2.Metadata
import Dbfs2.RoundTrip

namespace dbfs2

open common Tx inode

/-! ## The attributes that are stored -/

theorem ShowsAttr.unique {n : UInt64} {db : Db} {attr attr' : DbfsAttr} (h : ShowsAttr db n attr)
    (h' : ShowsAttr db n attr') : attr = attr' := by
  cases (attr_tx_iff.mpr ⟨h, rfl⟩).symm.trans (attr_tx_iff.mpr ⟨h', rfl⟩)
  rfl

theorem attr_ok_iff {n : UInt64} {s : Sys} {attr : DbfsAttr} :
    dbfs_common_attr n s = (.Ok attr, s) ↔ ShowsAttr s.db n attr := by
  simp [dbfs_common_attr, Fs.read_ok, attr_tx_iff]

/-! ## Group and set-gid bit -/

section parent

/-- Inode `n` has the group, and as a directory the set-gid bit, that its parent's mode says. -/
def FollowsParent (db : Db) (n : UInt64) (p_gid : UInt32) (p_mode : DbfsPermission)
    (uid gid : UInt32) (permission : DbfsPermission) : Prop :=
  db.u32 n .gid = some (if p_mode.contains DbfsPermission.S_ISGID then p_gid else gid) ∧
  (db.IsDir n → ∃ mode : DbfsPermission, db.u16 n .mode = some mode ∧
    if p_mode.contains DbfsPermission.S_ISGID then mode.contains DbfsPermission.S_ISGID = true
    else mode.contains DbfsPermission.S_ISGID = true →
      uid = 0 ∧ permission.contains DbfsPermission.S_ISGID = true)

theorem contains_or_self (p q : DbfsPermission) : DbfsPermission.contains (p ||| q) q = true := by
  have h : (p ||| q) &&& q = q := by
    apply UInt16.toNat_inj.mp
    apply Nat.eq_of_testBit_eq
    intro i
    rw [UInt16.toNat_and, UInt16.toNat_or, Nat.testBit_and, Nat.testBit_or]
    cases (UInt16.toNat q).testBit i <;> simp
  simp [DbfsPermission.contains, h]

/-- Every directory that is made in a directory gets the set-gid bit. -/
theorem new_mode_of_directory {p_mode permission : DbfsPermission} (uid : UInt32)
    (hp : DbfsFileType.from p_mode = some .Directory)
    (h : DbfsFileType.from permission = some .Directory) :
    (new_mode uid p_mode permission).contains DbfsPermission.S_ISGID = true := by
  simp only [new_mode, contains_of_dir h, contains_of_dir hp, Bool.and_self, if_true]
  exact contains_or_self _ _

/-- Group and set-gid bit come from the parent exactly when the requested mode and the parent's
agree on the set-gid bit, or the groups are the same, and when a new directory is due the bit. -/
theorem follows_parent_iff [Features] (dir : UInt64) (name : String) (uid gid p_gid : UInt32)
    (t : DbfsTimeSpec) (p_mode permission : DbfsPermission) (target_path : Option String)
    (dev : Option UInt32) (s s' : Sys) (hgid : s.db.u32 dir .gid = some p_gid)
    (hmode : s.db.u16 dir .mode = some p_mode)
    (hdir : DbfsFileType.from p_mode = some .Directory)
    (h : (dbfs_common_create dir name uid gid t permission target_path dev s).2 = s')
    (hfree : ¬ s.db.Has s.DBFS_INODE_NUMBER) (hmade : s'.db.Has s.DBFS_INODE_NUMBER) :
    FollowsParent s'.db s.DBFS_INODE_NUMBER p_gid p_mode uid gid permission ↔
      (permission.contains DbfsPermission.S_ISGID = p_mode.contains DbfsPermission.S_ISGID ∨
        p_gid = gid) ∧
      (DbfsFileType.from permission = some .Directory →
        p_mode.contains DbfsPermission.S_ISGID = true ∨
          (uid = 0 ∧ permission.contains DbfsPermission.S_ISGID = true)) := by
  subst h
  rcases create_db dir permission target_path dev s with hdb | ⟨r, htx⟩
  · rw [hdb] at hmade
    exact absurd hmade hfree
  obtain ⟨_, p_gid', p_mode', size, counts, hgid', hmode', _, _, hnew, _⟩ := create_tx_ok htx
  cases hgid.symm.trans hgid'
  cases hmode.symm.trans hmode'
  obtain ⟨_, _, _, _, hnew_mode, _⟩ := new_inode_tx_spec hnew
  obtain ⟨_, hnew_gid, _⟩ := new_inode_tx_fields hnew
  have hkind : (dbfs_common_create dir name uid gid t permission target_path dev s).2.db.IsDir
      s.DBFS_INODE_NUMBER ↔ DbfsFileType.from permission = some .Directory := by
    rw [Db.IsDir, Db.kind, hnew_mode, Option.bind_some, DbfsFileType.from_and, new_mode_type,
      ← DbfsFileType.from_and]
  unfold FollowsParent
  rw [hnew_gid, hnew_mode, hkind, Option.some_inj]
  refine and_congr ?_ (imp_congr_right fun hty => ?_)
  · unfold creation_gid
    cases permission.contains DbfsPermission.S_ISGID <;>
      cases p_mode.contains DbfsPermission.S_ISGID <;> simp [eq_comm]
  · have hset := new_mode_of_directory uid hdir hty
    simp only [Option.some_inj, exists_eq_left', hset]
    cases p_mode.contains DbfsPermission.S_ISGID <;> simp

end parent

/-! ## The fields of a new inode -/

section fields

variable [Features] {n dir : UInt64} {uid gid : UInt32} {t : DbfsTimeSpec}
  {mode permission : DbfsPermission} {target_path : Option String} {dev : Option UInt32}
  {counts : UInt32 × Nat × Option UInt32} {db db' : Db}

omit [Features] in
theorem contains_of_contains {p q r : DbfsPermission} (h : p.contains q = true)
    (hqr : q &&& r = r) : p.contains r = true := by
  have hp : p &&& q = q := by simpa [DbfsPermission.contains] using h
  have : p &&& r = r := by rw [← hqr, ← UInt16.and_assoc, hp]
  simp [DbfsPermission.contains, this]

omit [Features] in
/-- A symbolic link has the bit of a character device, so that the branch for links is never
taken. -/
theorem new_counts_eq (permission : DbfsPermission) (target_path : Option String)
    (dev : Option UInt32) : new_counts permission target_path dev =
      if permission.contains DbfsPermission.S_IFSOCK || permission.contains DbfsPermission.S_IFCHR
          || permission.contains DbfsPermission.S_IFBLK
          || permission.contains DbfsPermission.S_IFIFO then some (1, 0, dev)
      else if permission.contains DbfsPermission.S_IFDIR then some (2, 2, none)
      else some (1, 0, none) := by
  unfold new_counts
  split_ifs with hfirst _ hlink
  · rfl
  · rfl
  · have hchar := contains_of_contains hlink (r := DbfsPermission.S_IFCHR) (by decide)
    simp [hchar] at hfirst
  · rfl

omit [Features] in
theorem new_counts_le (h : new_counts permission target_path dev = some counts) :
    counts.2.1 ≤ 2 := by
  rw [new_counts_eq] at h
  split_ifs at h <;> cases h <;> simp

/-- The attributes that a new inode shows. -/
def new_attr (n : UInt64) (uid gid : UInt32) (t : DbfsTimeSpec) (mode : DbfsPermission)
    (kind : DbfsFileType) (links : UInt32) (size : Nat) (rdev : UInt32) : DbfsAttr :=
  { ino := n, size, blocks := (size + SLICE_SIZE - 1) / SLICE_SIZE, atime := t, mtime := t,
    ctime := t, crtime := .default, kind, perm := mode, nlink := links, uid, gid, rdev,
    blksize := UInt32.ofNat SLICE_SIZE, padding := 0, flags := 0 }

theorem new_inode_tx_target
    (h : new_inode_tx n dir uid gid t mode permission target_path dev db = .Ok (counts, db')) :
    db'.u32 n .dev = counts.2.2 ∧ db'.get n Field.data.key =
      if permission.contains DbfsPermission.S_IFLNK then target_path.map as_bytes else none := by
  obtain ⟨_, _, target, htarget, rfl⟩ := new_inode_tx_ok h
  unfold new_target at htarget
  rcases hdev : counts.2.2 with _ | d
  all_goals
    split_ifs at htarget with hlink
    · obtain ⟨path, rfl, rfl⟩ := Option.map_eq_some_iff.mp htarget
      constructor
      · rw [Db.u32]
        simp [new_fields, get_puts_dots]
      · simp [hlink]
    · cases htarget
      constructor
      · rw [Db.u32]
        simp [new_fields, get_puts_dots]
      · simp [hlink, new_fields, get_puts_dots]

theorem new_inode_shows {kind : DbfsFileType} {rdev : UInt32}
    (h : new_inode_tx n dir uid gid t mode permission target_path dev db = .Ok (counts, db'))
    (hkind : DbfsFileType.from mode = some kind)
    (hrdev : if IsDevice kind then counts.2.2 = some rdev else rdev = 0) :
    ShowsAttr db' n (new_attr n uid gid t mode kind counts.1 counts.2.1 rdev) := by
  have hS := SLICE_SIZE_pos
  have hle := SLICE_SIZE_le
  have hblk := slice_size_u32
  obtain ⟨_, hcounts, _, _, hmode, hsize, hlinks, _⟩ := new_inode_tx_spec h
  obtain ⟨huid, hgid, hblock, ha, hm, hc, _⟩ := new_inode_tx_fields h
  have hsmall := new_counts_le hcounts
  rw [usize_be (by omega)] at hsize
  refine ⟨hsize, hmode, hkind, hlinks, huid, hgid, hblock, ⟨fun e => ?_, ?_, ?_⟩, ?_, ?_, ?_, ?_,
    rfl, rfl, rfl, rfl⟩
  · have hzero : (UInt32.ofNat SLICE_SIZE).toNat = 0 := congrArg UInt32.toNat e
    omega
  · change counts.2.1 + (UInt32.ofNat SLICE_SIZE).toNat < 2 ^ 64
    omega
  · change (counts.2.1 + SLICE_SIZE - 1) / SLICE_SIZE =
      (counts.2.1 + (UInt32.ofNat SLICE_SIZE).toNat - 1) / (UInt32.ofNat SLICE_SIZE).toNat
    rw [hblk]
  · rw [ha]
    exact dbfs_time_spec_be t
  · rw [hm]
    exact dbfs_time_spec_be t
  · rw [hc]
    exact dbfs_time_spec_be t
  · rw [(new_inode_tx_target h).1]
    exact hrdev

/-- What a new inode shows: a device must have its number. -/
theorem new_inode_shows_iff {kind : DbfsFileType} {attr : DbfsAttr}
    (h : new_inode_tx n dir uid gid t mode permission target_path dev db = .Ok (counts, db'))
    (hkind : DbfsFileType.from mode = some kind) :
    ShowsAttr db' n attr ↔ ∃ rdev, (if IsDevice kind then counts.2.2 = some rdev else rdev = 0) ∧
      attr = new_attr n uid gid t mode kind counts.1 counts.2.1 rdev := by
  constructor
  · intro hs
    have hmode := hs.mode
    rw [(new_inode_tx_spec h).2.2.2.2.1, Option.some_inj] at hmode
    have hattr : attr.kind = kind := by
      have := hs.kind
      rw [← hmode, hkind, Option.some_inj] at this
      exact this.symm
    have hrdev := hs.rdev
    rw [hattr, (new_inode_tx_target h).1] at hrdev
    exact ⟨attr.rdev, hrdev, hs.unique (new_inode_shows h hkind hrdev)⟩
  · rintro ⟨rdev, hrdev, rfl⟩
    exact new_inode_shows h hkind hrdev

end fields

/-! ## Creation by type -/

section types

/-- The size that a new inode of the type is due. -/
def due_size (ty : DbfsFileType) (target_path : Option String) : Nat :=
  match ty with
  | .Directory => 2
  | .Symlink => target_path.elim 0 String.utf8ByteSize
  | _ => 0

def due_links (ty : DbfsFileType) : UInt32 := if ty = .Directory then 2 else 1

/-- Inode `n`, made in directory `dir`, has what a new inode of the type is due, and its
attributes say so. -/
structure RespectsType (s : Sys) (n dir : UInt64) (ty : DbfsFileType)
    (target_path : Option String) (dev : Option UInt32) : Prop where
  size : s.db.usize n .size = some (due_size ty target_path)
  hard_links : s.db.u32 n .hard_links = some (due_links ty)
  dots : if ty = .Directory then s.db.entry n "." = some n ∧ s.db.entry n ".." = some dir
    else s.db.get n (generate_data_key ".") = none ∧ s.db.get n (generate_data_key "..") = none
  data : if ty = .Symlink then
      ∃ target, target_path = some target ∧ s.db.get n Field.data.key = some (as_bytes target)
    else s.db.get n Field.data.key = none
  device : IsDevice ty → s.db.u32 n .dev = dev
  attr : ∃ attr, dbfs_common_attr n s = (.Ok attr, s) ∧ attr.kind = ty ∧
    attr.size = due_size ty target_path ∧ attr.nlink = due_links ty ∧
    (IsDevice ty → dev = some attr.rdev)

/-- The link count, the size and the device that the code gives to the type. -/
def made_counts (ty : DbfsFileType) (dev : Option UInt32) : UInt32 × Nat × Option UInt32 :=
  match ty with
  | .Directory => (2, 2, none)
  | .RegularFile => (1, 0, none)
  | _ => (1, 0, dev)

variable {permission : DbfsPermission} {ty : DbfsFileType}
  (hty : permission &&& DbfsPermission.S_IFMT = ty.bits)

include hty

theorem new_counts_by_type (target_path : Option String) (dev : Option UInt32) :
    new_counts permission target_path dev = some (made_counts ty dev) := by
  rw [new_counts_eq,
    DbfsPermission.contains_type permission (q := DbfsPermission.S_IFSOCK) (by decide),
    DbfsPermission.contains_type permission (q := DbfsPermission.S_IFCHR) (by decide),
    DbfsPermission.contains_type permission (q := DbfsPermission.S_IFBLK) (by decide),
    DbfsPermission.contains_type permission (q := DbfsPermission.S_IFIFO) (by decide),
    DbfsPermission.contains_type permission (q := DbfsPermission.S_IFDIR) (by decide), hty]
  cases ty <;> rfl

/-- Of the seven types only the symbolic link has its bits. -/
theorem contains_link_bits : permission.contains DbfsPermission.S_IFLNK = true ↔ ty = .Symlink := by
  rw [DbfsPermission.contains_type permission (by decide), hty]
  cases ty <;> decide

section made

variable [Features] {n dir : UInt64} {uid gid : UInt32} {t : DbfsTimeSpec} {mode : DbfsPermission}
  {target_path : Option String} {dev : Option UInt32}
  {counts : UInt32 × Nat × Option UInt32} {db db' : Db}
  (h : new_inode_tx n dir uid gid t mode permission target_path dev db = .Ok (counts, db'))

include h

/-- The dots are made for sockets and block devices too. -/
theorem new_inode_dots : if ty = .Directory ∨ ty = .Socket ∨ ty = .BlockDevice then
      db'.entry n "." = some n ∧ db'.entry n ".." = some dir
    else db'.get n (generate_data_key ".") = none ∧ db'.get n (generate_data_key "..") = none := by
  obtain ⟨_, _, _, _, _, _, _, hentries⟩ := new_inode_tx_spec h
  have hbit := contains_dir_bit hty
  have hentry : ∀ name, db'.get n (generate_data_key name) =
      ((db.create n).puts n (new_dots permission n dir)).get n (generate_data_key name) :=
    fun name => hentries _ fun f => by simp
  simp only [Db.entry, Db.ref, hentry]
  split_ifs with hdir
  · simp [new_dots, hbit.mpr hdir]
  · simp [new_dots, mt hbit.mp hdir]

end made

omit hty in
/-- Create respects the type that is asked for exactly when that is no socket and no block device,
a symbolic link has the empty target and a character device is given its number. -/
theorem respects_type_iff [Features] (dir : UInt64) (name : String) (uid gid : UInt32)
    (t : DbfsTimeSpec) (permission : DbfsPermission) (ty : DbfsFileType)
    (target_path : Option String) (dev : Option UInt32) (s s' : Sys) (attr : DbfsAttr)
    (hty : permission &&& DbfsPermission.S_IFMT = ty.bits)
    (h : dbfs_common_create dir name uid gid t permission target_path dev s = (.Ok attr, s')) :
    RespectsType s' s.DBFS_INODE_NUMBER dir ty target_path dev ↔
      ty ≠ .Socket ∧ ty ≠ .BlockDevice ∧ (ty = .Symlink → target_path = some "") ∧
        (ty = .CharDevice → dev.isSome = true) := by
  obtain ⟨_, r, htx⟩ := create_spec h
  obtain ⟨_, p_gid, p_mode, size, counts, _, _, _, _, hnew, _⟩ := create_tx_ok htx
  obtain ⟨_, hcounts, _, _, hmode, hsize, hlinks, _⟩ := new_inode_tx_spec hnew
  obtain ⟨hdevice, hdata⟩ := new_inode_tx_target hnew
  have hdots := new_inode_dots hty hnew
  have hkind : DbfsFileType.from (new_mode uid p_mode permission) = some ty :=
    DbfsFileType.from_bits (by rw [new_mode_type, hty])
  have hsmall := new_counts_le hcounts
  rw [usize_be (by omega)] at hsize
  cases (new_counts_by_type hty target_path dev).symm.trans hcounts
  constructor
  · intro hr
    have hno : ¬ (ty = .Socket ∨ ty = .BlockDevice) := by
      intro hdir
      have hr_dots := hr.dots
      rw [if_neg (by rintro rfl; simp at hdir)] at hr_dots
      rw [if_pos (.inr hdir), Db.entry, Db.ref, hr_dots.1] at hdots
      cases hdots.1
    refine ⟨fun e => hno (.inl e), fun e => hno (.inr e), ?_, ?_⟩
    · rintro rfl
      obtain ⟨target, rfl, _⟩ := (if_pos rfl).mp hr.data
      have hlen : 0 = target.utf8ByteSize := Option.some.inj (hsize.symm.trans hr.size)
      rw [String.utf8ByteSize_eq_zero_iff.mp hlen.symm]
    · rintro rfl
      obtain ⟨_, _, _, _, _, hdev⟩ := hr.attr
      rw [hdev (.inl rfl)]
      rfl
  · rintro ⟨hsock, hblk, hlink, hchar⟩
    have hdue : (made_counts ty dev).2.1 = due_size ty target_path := by
      by_cases hsym : ty = .Symlink
      · rw [hlink hsym, hsym]
        rfl
      · cases ty <;> first | rfl | exact absurd rfl hsym
    have hdue_links : (made_counts ty dev).1 = due_links ty := by cases ty <;> rfl
    have hdev : IsDevice ty → (made_counts ty dev).2.2 = dev := by
      rintro (rfl | rfl) <;> rfl
    have hgiven : IsDevice ty → dev.isSome = true := fun hd => hchar (hd.resolve_right hblk)
    refine ⟨by rw [hsize, hdue], by rw [hlinks, hdue_links], ?_, ?_,
      fun hd => hdevice.trans (hdev hd), ?_⟩
    · by_cases hdir : ty = .Directory
      · rw [if_pos (.inl hdir)] at hdots
        rwa [if_pos hdir]
      · rw [if_neg (by simp [hdir, hsock, hblk])] at hdots
        rwa [if_neg hdir]
    · simp only [contains_link_bits hty] at hdata
      by_cases hsym : ty = .Symlink
      · rw [if_pos hsym, hlink hsym] at hdata
        rw [if_pos hsym]
        exact ⟨"", hlink hsym, hdata⟩
      · rw [if_neg hsym] at hdata
        rwa [if_neg hsym]
    · obtain ⟨rdev, hrdev, hgive⟩ : ∃ rdev, (if IsDevice ty then
          (made_counts ty dev).2.2 = some rdev else rdev = 0) ∧
        (IsDevice ty → dev = some rdev) := by
        by_cases hd : IsDevice ty
        · obtain ⟨d, hd'⟩ := Option.isSome_iff_exists.mp (hgiven hd)
          exact ⟨d, by rw [if_pos hd, hdev hd, hd'], fun _ => hd'⟩
        · exact ⟨0, by rw [if_neg hd], fun h => absurd h hd⟩
      exact ⟨_, attr_ok_iff.mpr (new_inode_shows hnew hkind hrdev), rfl, hdue, hdue_links, hgive⟩

end types

/-! ## A directory, a file in it, a symbolic link and a socket -/

section sample

attribute [local instance] sli512_features

/-- A new directory of group 7 in the root directory, inode 2. -/
def dir_of_seven : DbfsResult DbfsAttr × Sys :=
  dbfs_common_create 1 "d" 0 7 .default (DbfsPermission.S_IFDIR ||| 0o755) none none
    (fs_type.new_fs 0 0 .default)

/-- A new file in it, by a requester of group 9. -/
def file_of_nine : DbfsResult DbfsAttr × Sys :=
  dbfs_common_create 2 "f" 0 9 .default (DbfsPermission.S_IFREG ||| 0o644) none none
    dir_of_seven.2

theorem set_gid_is_made_up_and_ignored :
    (dir_of_seven.2.db.u16 2 .mode = some 0o42755 ∧
      (fs_type.new_fs 0 0 .default).db.u16 1 .mode = some 0o40777 ∧
      ¬ FollowsParent dir_of_seven.2.db 2 0 0o40777 0 7 (DbfsPermission.S_IFDIR ||| 0o755)) ∧
    dir_of_seven.2.db.u32 2 .gid = some 7 ∧ file_of_nine.2.db.u32 3 .gid = some 9 ∧
      ¬ FollowsParent file_of_nine.2.db 3 7 0o42755 0 9 (DbfsPermission.S_IFREG ||| 0o644) := by
  have hmode : dir_of_seven.2.db.u16 2 .mode = some 0o42755 := by decide +kernel
  have hgid : file_of_nine.2.db.u32 3 .gid = some 9 := by decide +kernel
  refine ⟨⟨hmode, by decide +kernel, fun h => ?_⟩, by decide +kernel, hgid, fun h => ?_⟩
  · obtain ⟨mode, hmode', hbit⟩ := h.2 (by decide +kernel)
    cases hmode.symm.trans hmode'
    revert hbit
    decide
  · cases hgid.symm.trans h.1

/-- A directory in it, by a requester of group 9 who asks for the set-gid bit. -/
def dir_of_nine : DbfsResult DbfsAttr × Sys :=
  dbfs_common_create 2 "e" 0 9 .default
    (DbfsPermission.S_IFDIR ||| DbfsPermission.S_ISGID ||| 0o755) none none dir_of_seven.2

theorem set_gid_directory_follows :
    dir_of_nine.2.db.u32 3 .gid = some 7 ∧ FollowsParent dir_of_nine.2.db 3 7 0o42755 0 9
      (DbfsPermission.S_IFDIR ||| DbfsPermission.S_ISGID ||| 0o755) :=
  ⟨by decide +kernel, (follows_parent_iff 2 "e" 0 9 7 .default 0o42755
    (DbfsPermission.S_IFDIR ||| DbfsPermission.S_ISGID ||| 0o755) none none dir_of_seven.2
    dir_of_nine.2 (by decide +kernel) (by decide +kernel) (by decide) rfl (by decide +kernel)
    (by decide +kernel)).mpr ⟨.inl (by decide), fun _ => .inl (by decide)⟩⟩

def link_to_f : DbfsResult DbfsAttr × Sys :=
  dbfs_common_create 1 "l" 0 0 .default (DbfsPermission.S_IFLNK ||| 0o777) (some "f") none
    (fs_type.new_fs 0 0 .default)

def new_socket : DbfsResult DbfsAttr × Sys :=
  dbfs_common_create 1 "s" 0 0 .default (DbfsPermission.S_IFSOCK ||| 0o755) none none
    (fs_type.new_fs 0 0 .default)

theorem link_has_no_size_and_socket_has_dots :
    (link_to_f.2.db.usize 2 .size = some 0 ∧
      ¬ RespectsType link_to_f.2 2 1 .Symlink (some "f") none) ∧
    new_socket.2.db.entry 2 "." = some 2 ∧ ¬ RespectsType new_socket.2 2 1 .Socket none none := by
  have hsize : link_to_f.2.db.usize 2 .size = some 0 := by decide +kernel
  have hdot : new_socket.2.db.entry 2 "." = some 2 := by decide +kernel
  refine ⟨⟨hsize, fun h => ?_⟩, hdot, fun h => ?_⟩
  · exact absurd (hsize.symm.trans h.size) (by decide)
  · have hnone := ((if_neg (by decide)).mp h.dots).1
    rw [Db.entry, Db.ref, hnone] at hdot
    cases hdot

theorem new_file_respects_its_type : RespectsType with_new_file.2 2 1 .RegularFile none none :=
  (respects_type_iff 1 "f" 0 0 .default (DbfsPermission.S_IFREG ||| 0o644) .RegularFile none none
    (fs_type.new_fs 0 0 .default) with_new_file.2 new_file_attr (by decide) with_new_file_eq).mpr
    ⟨by decide, by decide, fun h => absurd h (by decide), fun h => absurd h (by decide)⟩

end sample

end dbfs2
