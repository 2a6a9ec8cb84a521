-- Who may read, write and execute: the permission check against the rule of POSIX,
-- access(2) against open(2), who may set times, and the right to set an extended
-- attribute against the right to remove it.
import Dbfs2.Attr
import Dbfs2.InodeSpec
import Dbfs2.FsType

namespace dbfs2

open common Tx inode file attr

/-! ## The rule of POSIX -/

/-- Root reads and writes anything, and executes what somebody may execute. -/
def RootAllows (mode mask : UInt16) : Prop :=
  mask &&& 1 = 0 ∨ (mode >>> 6) &&& 1 = 1 ∨ (mode >>> 3) &&& 1 = 1 ∨ mode &&& 1 = 1

/-- The bits of the class that a requester is in: owner, group or others. -/
def class_bits (owner group : UInt32) (mode : UInt16) (uid gid : UInt32) : UInt16 :=
  if uid = owner then mode >>> 6 else if gid = group then mode >>> 3 else mode

/-- Everything asked for is set in the bits of the requester's class. -/
def ClassAllows (owner group : UInt32) (mode : UInt16) (uid gid : UInt32) (mask : UInt16) : Prop :=
  mask &&& class_bits owner group mode uid gid = mask

def PosixAllows (owner group : UInt32) (mode : UInt16) (uid gid : UInt32) (mask : UInt16) : Prop :=
  if uid = 0 then RootAllows mode mask else ClassAllows owner group mode uid gid mask

theorem sub_and_eq_zero (m b : UInt16) : m - (m &&& b) = 0 ↔ m &&& b = m := by
  rw [sub_eq_zero, eq_comm]

theorem and_one_cases (b : UInt16) : b &&& 1 = 0 ∨ b &&& 1 = 1 := by
  have h : (b &&& 1).toNat = b.toNat % 2 := by
    rw [UInt16.toNat_and, UInt16.toNat_one, Nat.and_one_is_mod]
  rcases Nat.mod_two_eq_zero_or_one b.toNat with h0 | h1
  · exact .inl (UInt16.toNat_inj.mp (h.trans h0))
  · exact .inr (UInt16.toNat_inj.mp (h.trans h1))

/-- The x bit that is asked for goes away when one of the three x bits is set. -/
theorem root_check (mode mask : UInt16) :
    (let m := mask &&& 1
     let m := m - (m &&& (mode >>> 6))
     let m := m - (m &&& (mode >>> 3))
     m - (m &&& mode)) = 0 ↔ RootAllows mode mask := by
  have hcomm : ∀ b : UInt16, 1 &&& b = b &&& 1 := fun b => UInt16.and_comm 1 b
  unfold RootAllows
  rcases and_one_cases mask with hm | hm
  · simp [hm]
  · rcases and_one_cases (mode >>> 6) with h6 | h6
    · rcases and_one_cases (mode >>> 3) with h3 | h3
      · rcases and_one_cases mode with h0 | h0
        · simp [hm, h6, h3, h0, hcomm]
        · simp [hm, h6, h3, h0, hcomm]
      · simp [hm, h6, h3, hcomm]
    · simp [hm, h6, hcomm]

/-- The check is the rule of POSIX, for every mask. -/
theorem checkout_access_iff (owner group : UInt32) (mode : UInt16) (uid gid : UInt32)
    (mask : UInt16) :
    checkout_access owner group mode uid gid mask = true ↔
      PosixAllows owner group mode uid gid mask := by
  unfold checkout_access PosixAllows
  by_cases h0 : mask = 0
  · subst h0
    simp [RootAllows, ClassAllows]
  · rw [if_neg h0]
    by_cases hroot : uid = 0
    · simp only [if_pos hroot, decide_eq_true_eq]
      exact root_check mode mask
    · simp only [if_neg hroot, decide_eq_true_eq, ClassAllows, class_bits]
      by_cases hu : owner = uid
      · rw [if_pos hu, if_pos hu.symm]
        exact sub_and_eq_zero _ _
      · rw [if_neg hu, if_neg (Ne.symm hu)]
        by_cases hg : group = gid
        · rw [if_pos hg, if_pos hg.symm]
          exact sub_and_eq_zero _ _
        · rw [if_neg hg, if_neg (Ne.symm hg)]
          exact sub_and_eq_zero _ _

/-- The class is the same seen from both sides. -/
theorem class_bits_comm (owner group : UInt32) (mode : UInt16) (uid gid : UInt32) :
    class_bits owner group mode uid gid = class_bits uid gid mode owner group := by
  unfold class_bits
  simp only [eq_comm]

/-! ## access and open -/

/-- A mask of access(2) as the `i32` that the call is given. -/
def mask_i32 (mask : UInt16) : Int32 := mask.toUInt32.toInt32

theorem mask_i32_cast (mask : UInt16) : (mask_i32 mask).toUInt32.toUInt16 = mask := by
  simp [mask_i32]

/-- The owner, the group and the mode that are stored for an inode. -/
structure Db.Owned (db : Db) (n : UInt64) (owner group : UInt32) (mode : UInt16) : Prop where
  uid : db.u32 n .uid = some owner
  gid : db.u32 n .gid = some group
  mode : db.u16 n .mode = some mode

/-- The rule of POSIX on what is stored for an inode. -/
def Db.PosixGrants (db : Db) (n : UInt64) (uid gid : UInt32) (mask : UInt16) : Prop :=
  ∃ owner group mode, db.Owned n owner group mode ∧ PosixAllows owner group mode uid gid mask

section

variable {s : Sys} {ino : UInt64}

theorem ShowsAttr.owned {attr : DbfsAttr} (h : ShowsAttr s.db ino attr) :
    s.db.Owned ino attr.uid attr.gid attr.perm := ⟨h.uid, h.gid, h.mode⟩

section owned

variable {db : Db} {n : UInt64} {owner group : UInt32} {mode : UInt16}

theorem Db.Owned.unique {owner' group' : UInt32} {mode' : UInt16}
    (h : db.Owned n owner group mode) (h' : db.Owned n owner' group' mode') :
    owner' = owner ∧ group' = group ∧ mode' = mode :=
  ⟨Option.some.inj (h'.uid.symm.trans h.uid), Option.some.inj (h'.gid.symm.trans h.gid),
    Option.some.inj (h'.mode.symm.trans h.mode)⟩

theorem Db.Owned.exists_iff (h : db.Owned n owner group mode)
    (P : UInt32 → UInt32 → UInt16 → Prop) :
    (∃ owner group mode, db.Owned n owner group mode ∧ P owner group mode) ↔
      P owner group mode := by
  constructor
  · rintro ⟨_, _, _, h', hp⟩
    obtain ⟨rfl, rfl, rfl⟩ := h.unique h'
    exact hp
  · exact fun hp => ⟨owner, group, mode, h, hp⟩

theorem Db.Owned.forall_iff (h : db.Owned n owner group mode)
    (P : UInt32 → UInt32 → UInt16 → Prop) :
    (∀ owner group mode, db.Owned n owner group mode → P owner group mode) ↔
      P owner group mode := by
  refine ⟨fun hp => hp owner group mode h, fun hp owner' group' mode' h' => ?_⟩
  obtain ⟨rfl, rfl, rfl⟩ := h.unique h'
  exact hp

end owned

/-- The call looks at owner, group and mode alone, and hands them on in the requester's place. -/
theorem access_ok_iff (uid gid : UInt32) (mask : UInt16) :
    (dbfs_common_access uid gid ino (mask_i32 mask) s).1 = .Ok true ↔
      ∃ owner group mode, s.db.Owned ino owner group mode ∧
        PosixAllows uid gid mode owner group mask := by
  simp only [← checkout_access_iff]
  constructor
  · intro h
    have hrun : dbfs_common_access uid gid ino (mask_i32 mask) s = (.Ok true, s) :=
      Prod.ext h (Fs.read_state ..)
    obtain ⟨⟨_, htx⟩, _⟩ := Fs.read_ok.mp hrun
    simp only [bind_ok, get_bucket_ok, read_u16_ok, read_u32_ok, pure_ok, mask_i32_cast] at htx
    obtain ⟨_, _, ⟨_, rfl⟩, mode, _, ⟨hmode, rfl⟩, owner, _, ⟨howner, rfl⟩, group, _,
      ⟨hgroup, rfl⟩, hcheck, _⟩ := htx
    exact ⟨owner, group, mode, ⟨howner, hgroup, hmode⟩, hcheck.symm⟩
  · rintro ⟨owner, group, mode, hown, hcheck⟩
    have hrun : dbfs_common_access uid gid ino (mask_i32 mask) s = (.Ok true, s) := by
      refine Fs.read_ok.mpr ⟨⟨s.db, ?_⟩, rfl⟩
      rw [bind_of_ok (get_bucket_ok (u := ()).mpr ⟨Db.has_of_u32 hown.uid, rfl⟩),
        bind_of_ok (read_u16_ok.mpr ⟨hown.mode, rfl⟩),
        bind_of_ok (read_u32_ok.mpr ⟨hown.uid, rfl⟩),
        bind_of_ok (read_u32_ok.mpr ⟨hown.gid, rfl⟩), mask_i32_cast, hcheck]
      rfl
    rw [hrun]

/-- The call reads all attributes before it looks at the three. -/
theorem open_ok_iff (uid gid : UInt32) (mask : UInt16) :
    (dbfs_common_open ino uid gid mask s).1 = .Ok () ↔
      ∃ attr, ShowsAttr s.db ino attr ∧
        PosixAllows attr.uid attr.gid attr.perm uid gid mask := by
  have hattr : ∀ attr, dbfs_common_attr ino s = (.Ok attr, s) ↔ ShowsAttr s.db ino attr := by
    intro attr
    rw [dbfs_common_attr, Fs.read_ok]
    simp [attr_tx_iff]
  have hstate : (dbfs_common_attr ino s).2 = s := Fs.read_state ..
  rw [dbfs_common_open, Fs.bind_eq, Fs.map_err]
  simp only [← hattr, ← checkout_access_iff]
  rcases hrun : dbfs_common_attr ino s with ⟨attr | e | _, s'⟩
  · rw [hrun] at hstate
    obtain rfl : s' = s := hstate
    by_cases hcheck : checkout_access attr.uid attr.gid attr.perm uid gid mask = true
    · simp [DbfsResult.map_err, Fs.ensure, hcheck]
      rfl
    · simp [DbfsResult.map_err, Fs.ensure, Fs.fail, hcheck]
  · simp [DbfsResult.map_err]
  · simp [DbfsResult.map_err]

/-- An inode that is not there can be neither accessed nor opened. -/
theorem absent_denied (h : ¬ s.db.Has ino) (uid gid : UInt32) (mask : UInt16) :
    (dbfs_common_access uid gid ino (mask_i32 mask) s).1 = .Err .NoData ∧
      (dbfs_common_open ino uid gid mask s).1 = .Err .NotFound := by
  have hget : get_bucket ino s.db = .Err .NoData := if_neg h
  constructor
  · unfold dbfs_common_access Fs.read
    rw [bind_of_err hget]
  · have hattr : dbfs_common_attr ino s = (.Err .NoData, s) := by
      unfold dbfs_common_attr Fs.read attr_tx
      rw [bind_of_err hget]
    unfold dbfs_common_open
    rw [Fs.bind_eq, Fs.map_err, hattr]
    rfl

end

/-- access(2) and open(2) give one answer, and it is the one of POSIX. -/
def AccessAgrees (s : Sys) (ino : UInt64) (uid gid : UInt32) (mask : UInt16) : Prop :=
  ((dbfs_common_access uid gid ino (mask_i32 mask) s).1 = .Ok true ↔
    (dbfs_common_open ino uid gid mask s).1 = .Ok ()) ∧
  ((dbfs_common_access uid gid ino (mask_i32 mask) s).1 = .Ok true ↔
    s.db.PosixGrants ino uid gid mask) ∧
  ((dbfs_common_open ino uid gid mask s).1 = .Ok () ↔ s.db.PosixGrants ino uid gid mask)

/-- Only the rule for root can tell the requester from the owner. -/
theorem swapped_allows_iff (owner group : UInt32) (mode : UInt16) (uid gid : UInt32)
    (mask : UInt16) :
    (PosixAllows uid gid mode owner group mask ↔ PosixAllows owner group mode uid gid mask) ↔
      (uid = 0 ↔ owner = 0) ∨
        (RootAllows mode mask ↔ ClassAllows owner group mode uid gid mask) := by
  unfold PosixAllows ClassAllows
  rw [class_bits_comm uid gid]
  by_cases hu : uid = 0 <;> by_cases ho : owner = 0
  · simp [hu, ho]
  · simp only [hu, ho, if_true, if_false, true_iff, false_or]
    exact Iff.comm
  · simp only [hu, ho, if_true, if_false, iff_true, false_or]
  · simp [hu, ho]

/-- The call swaps requester and owner, which only the rule for root can tell, and looks at three
attributes where open reads them all: it agrees with open when both are root or neither is, or
root's rule says the same as the class, and what the rule grants is an inode that can be read. -/
theorem access_agrees_iff (s : Sys) (ino : UInt64) (uid gid : UInt32) (mask : UInt16) :
    (¬ s.db.Has ino → (dbfs_common_access uid gid ino (mask_i32 mask) s).1 = .Err .NoData ∧
      (dbfs_common_open ino uid gid mask s).1 = .Err .NotFound) ∧
    (AccessAgrees s ino uid gid mask ↔ ∀ owner group mode, s.db.Owned ino owner group mode →
      ((uid = 0 ↔ owner = 0) ∨
        (RootAllows mode mask ↔ ClassAllows owner group mode uid gid mask)) ∧
      (PosixAllows owner group mode uid gid mask → ∃ attr, ShowsAttr s.db ino attr)) := by
  refine ⟨fun h => absent_denied h uid gid mask, ?_⟩
  unfold AccessAgrees
  rw [access_ok_iff, open_ok_iff]
  by_cases hown : ∃ owner group mode, s.db.Owned ino owner group mode
  · obtain ⟨owner, group, mode, hown⟩ := hown
    have hopen : (∃ attr, ShowsAttr s.db ino attr ∧
        PosixAllows attr.uid attr.gid attr.perm uid gid mask) ↔
          (∃ attr, ShowsAttr s.db ino attr) ∧ PosixAllows owner group mode uid gid mask := by
      constructor
      · rintro ⟨attr, hattr, h⟩
        obtain ⟨hu, hg, hm⟩ := hown.unique hattr.owned
        rw [hu, hg, hm] at h
        exact ⟨⟨attr, hattr⟩, h⟩
      · rintro ⟨⟨attr, hattr⟩, h⟩
        obtain ⟨hu, hg, hm⟩ := hown.unique hattr.owned
        exact ⟨attr, hattr, by rwa [hu, hg, hm]⟩
    -- with the three attributes stored, each answer is a rule about them
    rw [Db.PosixGrants, hown.exists_iff, hown.exists_iff, hown.forall_iff, hopen,
      ← swapped_allows_iff]
    exact ⟨fun h => ⟨h.2.1, fun hp => (h.2.2.mpr hp).1⟩,
      fun h => ⟨⟨fun ha => ⟨h.2 (h.1.mp ha), h.1.mp ha⟩, fun ho => h.1.mpr ho.2⟩, h.1,
        fun ho => ho.2, fun hp => ⟨h.2 hp, hp⟩⟩⟩
  · have hnone : ∀ owner group mode, ¬ s.db.Owned ino owner group mode := by
      simpa using hown
    have hnoattr : ∀ attr, ¬ ShowsAttr s.db ino attr := fun attr h => hnone _ _ _ h.owned
    simp [Db.PosixGrants, hnone, hnoattr]

section sample

attribute [local instance] sli512_features

/-- A file of user 5 with mode 0600, inode 2, in a directory of root. -/
def private_file : Sys :=
  let create := NameCall.create 1 "f" .default (DbfsPermission.S_IFREG ||| 0o600) none none
  (create.run 5 5 (fs_type.new_fs 0 0 .default)).2

def private_attr : DbfsAttr :=
  { ino := 2, size := 0, blocks := 0, atime := .default, mtime := .default, ctime := .default,
    crtime := .default, kind := .RegularFile, perm := 0o100600, nlink := 1, uid := 5, gid := 5,
    rdev := 0, blksize := 512, padding := 0, flags := 0 }

theorem private_file_attr : dbfs_common_attr 2 private_file = (.Ok private_attr, private_file) := by
  decide +kernel

/-- Root may open the file for reading, and access says that root may not. -/
theorem root_denied_by_access :
    (dbfs_common_open 2 0 0 4 private_file).1 = .Ok () ∧
      (dbfs_common_access 0 0 2 (mask_i32 4) private_file).1 = .Ok false ∧
      ¬ AccessAgrees private_file 2 0 0 4 := by
  have hopen : (dbfs_common_open 2 0 0 4 private_file).1 = .Ok () := by decide +kernel
  have haccess : (dbfs_common_access 0 0 2 (mask_i32 4) private_file).1 = .Ok false := by
    decide +kernel
  refine ⟨hopen, haccess, fun h => ?_⟩
  have := h.1.mpr hopen
  rw [haccess] at this
  cases this

theorem private_attr_shown : ShowsAttr private_file.db 2 private_attr := by
  have h := private_file_attr
  rw [dbfs_common_attr, Fs.read_ok] at h
  obtain ⟨⟨_, hattr⟩, _⟩ := h
  exact (attr_tx_iff.mp hattr).1

theorem access_by_the_owner : AccessAgrees private_file 2 5 5 6 ∧
    (dbfs_common_access 5 5 2 (mask_i32 6) private_file).1 = .Ok true := by
  refine ⟨(access_agrees_iff private_file 2 5 5 6).2.mpr fun owner group mode hown => ?_,
    by decide +kernel⟩
  obtain ⟨rfl, rfl, rfl⟩ := private_attr_shown.owned.unique hown
  exact ⟨.inl (by decide), fun _ => ⟨private_attr, private_attr_shown⟩⟩

end sample

/-! ## Setting times -/

/-- The time that a call stores under a key. -/
def new_time (atime mtime : Option DbfsTimeSpec) (c_time : DbfsTimeSpec) (k : Bytes) :
    Option DbfsTimeSpec :=
  if k = Field.ctime.key then some c_time
  else if k = Field.mtime.key then mtime
  else if k = Field.atime.key then atime
  else none

/-- One database is another with these times of inode `n`, and nothing else is new. -/
structure TimesSet (n : UInt64) (atime mtime : Option DbfsTimeSpec) (c_time : DbfsTimeSpec)
    (db db' : Db) : Prop where
  get (i : UInt64) (k : Bytes) : db'.get i k =
    ((if i = n then new_time atime mtime c_time k else none).map (·.to_be_bytes)).or (db.get i k)
  has (i : UInt64) : db'.Has i ↔ db.Has i
  super_blk : db'.super_blk = db.super_blk

section times

variable {s : Sys} {n : UInt64} {atime mtime : Option DbfsTimeSpec} {c_time : DbfsTimeSpec}
  {r_uid r_gid : UInt32}

/-- What utimens stores. -/
def timed (db : Db) (n : UInt64) (atime mtime : Option DbfsTimeSpec) (c_time : DbfsTimeSpec) : Db :=
  ((db.puts n (atime.toList.map fun t => (Field.atime.key, t.to_be_bytes))).puts n
    (mtime.toList.map fun t => (Field.mtime.key, t.to_be_bytes))).put n Field.ctime.key
      c_time.to_be_bytes

theorem timed_set {db : Db} (hn : db.Has n) :
    TimesSet n atime mtime c_time db (timed db n atime mtime c_time) := by
  refine ⟨fun i k => ?_, fun i => by simp [timed], by cases atime <;> cases mtime <;> rfl⟩
  rw [timed, Db.get_put, new_time]
  by_cases hi : i = n
  · subst hi
    by_cases hc : k = Field.ctime.key
    · simp [hc, hn]
    by_cases hm : k = Field.mtime.key
    · subst hm
      cases atime <;> cases mtime <;> simp [Db.get_put, hn]
    by_cases ha : k = Field.atime.key
    · subst ha
      cases atime <;> cases mtime <;> simp [Db.get_put, hn]
    · cases atime <;> cases mtime <;> simp [Db.get_put, hc, hm, ha]
  · cases atime <;> cases mtime <;> simp [Db.get_put, hi]

/-- The owner passes both tests. For others the first one asks whether the owner is root, and
the second one for the write bit. -/
theorem utimens_eq {attr : DbfsAttr} (hattr : ShowsAttr s.db n attr) :
    dbfs_common_utimens r_uid r_gid n atime mtime c_time s =
      if attr.uid ≠ r_uid ∧ attr.uid ≠ 0 then (.Err .PermissionDenied, s)
      else if attr.uid ≠ r_uid ∧ checkout_access attr.uid attr.gid (attr.perm &&& 0o777) r_uid
        r_gid ACCESS_W_OK = false then (.Err .AccessError, s)
      else
        (.Ok { attr with
            atime := atime.getD attr.atime, mtime := mtime.getD attr.mtime, ctime := c_time },
          { s with db := timed s.db n atime mtime c_time }) := by
  have hn := Db.has_of_u16 hattr.mode
  have htx : utimens_tx n atime mtime c_time s.db = .Ok ((), timed s.db n atime mtime c_time) := by
    simp [utimens_tx, timed, hn]
  rw [dbfs_common_utimens, dbfs_common_attr, Fs.bind_read, attr_tx_iff.mpr ⟨hattr, rfl⟩]
  simp only [Fs.bind_ensure, Fs.bind_write, htx, Bool.not_eq_true', Bool.and_eq_false_iff,
    Bool.not_eq_false', bne_eq_false_iff_eq]
  by_cases hdenied : attr.uid ≠ r_uid ∧ attr.uid ≠ 0
  · rw [if_pos hdenied, if_neg (by simpa [not_or] using hdenied)]
  · rw [if_neg hdenied, if_pos (by simpa [or_iff_not_imp_left] using hdenied)]
    by_cases haccess : attr.uid ≠ r_uid ∧ checkout_access attr.uid attr.gid (attr.perm &&& 0o777)
        r_uid r_gid ACCESS_W_OK = false
    · rw [if_pos haccess, if_neg (by simpa [not_or] using haccess)]
    · rw [if_neg haccess, if_pos (by simpa [or_iff_not_imp_left] using haccess)]
      rfl

/-- The owner and root set the times, nobody else does, and nothing else is touched. -/
structure TimesGuarded (s : Sys) (n : UInt64) (owner r_uid r_gid : UInt32)
    (atime mtime : Option DbfsTimeSpec) (c_time : DbfsTimeSpec) : Prop where
  allowed : r_uid = owner ∨ r_uid = 0 →
    ∃ attr s', dbfs_common_utimens r_uid r_gid n atime mtime c_time s = (.Ok attr, s')
  refused : ¬ (r_uid = owner ∨ r_uid = 0) →
    ∃ e s', dbfs_common_utimens r_uid r_gid n atime mtime c_time s = (.Err e, s')
  failed (e : DbfsError) (s' : Sys) :
    dbfs_common_utimens r_uid r_gid n atime mtime c_time s = (.Err e, s') → s' = s
  stored (attr : DbfsAttr) (s' : Sys) :
    dbfs_common_utimens r_uid r_gid n atime mtime c_time s = (.Ok attr, s') →
      TimesSet n atime mtime c_time s.db s'.db ∧ s' = { s with db := s'.db }

/-- Who is no owner is judged rightly unless it is root, or somebody whom root's own file lets
write. -/
def TimesJudged (attr : DbfsAttr) (r_uid r_gid : UInt32) : Prop :=
  r_uid = attr.uid ∨ r_uid ≠ 0 ∧
    (attr.uid ≠ 0 ∨ ¬ ClassAllows attr.uid attr.gid (attr.perm &&& 0o777) r_uid r_gid ACCESS_W_OK)

/-- The attributes of an inode are read or the read stops; there is no error for them. -/
theorem attr_tx_no_err {db : Db} (hn : db.Has n) (e : DbfsError) : attr_tx n db ≠ .Err e := by
  intro h
  simp only [attr_tx, bind_err, get_bucket_err, hn, not_true_eq_false, false_and, false_or,
    read_usize_err, read_u16_err, read_u32_err, unwrap_err, add_usize_err, sub_usize_err,
    read_time_err, assert_err, ite_err, pure_err, exists_const, and_false, exists_false] at h

/-- A reply comes after the attributes were read. -/
theorem utimens_replies {r : DbfsResult DbfsAttr} {s' : Sys} (hn : s.db.Has n)
    (h : dbfs_common_utimens r_uid r_gid n atime mtime c_time s = (r, s')) (hr : r ≠ .Panic) :
    ∃ attr, ShowsAttr s.db n attr := by
  rw [dbfs_common_utimens, dbfs_common_attr, Fs.bind_read] at h
  rcases hattr : attr_tx n s.db with ⟨attr, db'⟩ | e | _
  · exact ⟨attr, (attr_tx_iff.mp hattr).1⟩
  · exact absurd hattr (attr_tx_no_err hn e)
  · rw [hattr] at h
    cases h
    exact absurd rfl hr

/-- The requester gets past both tests. -/
theorem utimens_ok_iff {attr : DbfsAttr} (hattr : ShowsAttr s.db n attr) :
    (∃ a s', dbfs_common_utimens r_uid r_gid n atime mtime c_time s = (.Ok a, s')) ↔
      r_uid = attr.uid ∨ attr.uid = 0 ∧
        PosixAllows attr.uid attr.gid (attr.perm &&& 0o777) r_uid r_gid ACCESS_W_OK := by
  rw [utimens_eq hattr, ← checkout_access_iff]
  split_ifs with hdenied haccess
  · simp [Ne.symm hdenied.1, hdenied.2]
  · simp [Ne.symm haccess.1, haccess.2]
  · simp only [not_and, not_not, Bool.not_eq_false] at hdenied haccess
    refine iff_of_true ⟨_, _, rfl⟩ ?_
    by_cases h : attr.uid = r_uid
    · exact .inl h.symm
    · exact .inr ⟨hdenied h, haccess h⟩

theorem utimens_err_iff {attr : DbfsAttr} (hattr : ShowsAttr s.db n attr) :
    (∃ e s', dbfs_common_utimens r_uid r_gid n atime mtime c_time s = (.Err e, s')) ↔
      ¬ ∃ a s', dbfs_common_utimens r_uid r_gid n atime mtime c_time s = (.Ok a, s') := by
  rw [utimens_eq hattr]
  split_ifs <;> simp

/-- A call that goes past the attributes leaves nothing half done. -/
theorem utimens_stored {attr : DbfsAttr} (hattr : ShowsAttr s.db n attr) :
    (∀ e s', dbfs_common_utimens r_uid r_gid n atime mtime c_time s = (.Err e, s') → s' = s) ∧
      ∀ a s', dbfs_common_utimens r_uid r_gid n atime mtime c_time s = (.Ok a, s') →
        TimesSet n atime mtime c_time s.db s'.db ∧ s' = { s with db := s'.db } := by
  rw [utimens_eq hattr]
  refine ⟨fun e s' h => ?_, fun a s' h => ?_⟩
  · split_ifs at h <;> simp_all
  · split_ifs at h
    · simp at h
    · simp at h
    · cases h
      exact ⟨timed_set (Db.has_of_u16 hattr.mode), rfl⟩

/-- Times are guarded as they should be where the attributes can be read and the tests judge the
requester rightly. -/
theorem times_guarded_iff (s : Sys) (n : UInt64) (owner r_uid r_gid : UInt32)
    (atime mtime : Option DbfsTimeSpec) (c_time : DbfsTimeSpec)
    (howner : s.db.u32 n .uid = some owner) :
    TimesGuarded s n owner r_uid r_gid atime mtime c_time ↔
      ∃ attr, ShowsAttr s.db n attr ∧ TimesJudged attr r_uid r_gid := by
  -- the reply shows that the attributes can be read
  have hread : TimesGuarded s n owner r_uid r_gid atime mtime c_time →
      ∃ attr, ShowsAttr s.db n attr := by
    intro h
    by_cases hmay : r_uid = owner ∨ r_uid = 0
    · obtain ⟨a, s', hok⟩ := h.allowed hmay
      exact utimens_replies (Db.has_of_u32 howner) hok (by simp)
    · obtain ⟨e, s', herr⟩ := h.refused hmay
      exact utimens_replies (Db.has_of_u32 howner) herr (by simp)
  -- then the two tests decide
  have hjudged : ∀ attr, ShowsAttr s.db n attr →
      (TimesGuarded s n owner r_uid r_gid atime mtime c_time ↔ TimesJudged attr r_uid r_gid) := by
    intro attr hattr
    obtain rfl : attr.uid = owner := Option.some.inj (hattr.uid.symm.trans howner)
    have hguarded : TimesGuarded s n attr.uid r_uid r_gid atime mtime c_time ↔
        (r_uid = attr.uid ∨ r_uid = 0 ↔ r_uid = attr.uid ∨ attr.uid = 0 ∧
          PosixAllows attr.uid attr.gid (attr.perm &&& 0o777) r_uid r_gid ACCESS_W_OK) := by
      rw [← utimens_ok_iff hattr]
      constructor
      · intro h
        refine ⟨h.allowed, fun hok => ?_⟩
        by_contra hmay
        exact (utimens_err_iff hattr).mp (h.refused hmay) hok
      · intro h
        exact ⟨h.mp, fun hmay => (utimens_err_iff hattr).mpr fun hok => hmay (h.mpr hok),
          (utimens_stored hattr).1, (utimens_stored hattr).2⟩
    rw [hguarded, TimesJudged, PosixAllows]
    by_cases hself : r_uid = attr.uid
    · simp [hself]
    · by_cases hroot : r_uid = 0
      · subst hroot
        simp [hself, Ne.symm hself]
      · simp [hself, hroot, imp_iff_not_or]
  constructor
  · intro h
    obtain ⟨attr, hattr⟩ := hread h
    exact ⟨attr, hattr, (hjudged attr hattr).mp h⟩
  · rintro ⟨attr, hattr, h⟩
    exact (hjudged attr hattr).mpr h

section sample

/-- The directory of root that the file is in. -/
def root_attr : DbfsAttr :=
  { private_attr with
    ino := 1, size := 2, blocks := 1, kind := .Directory, perm := 0o40777, nlink := 2, uid := 0,
    gid := 0 }

/-- Root may not set the times of the file of user 5, and a stranger may set those of the
directory of root, which all may write to. -/
theorem root_denied_and_stranger_allowed :
    private_file.db.u32 2 .uid = some 5 ∧ private_file.db.u32 1 .uid = some 0 ∧
      (dbfs_common_utimens 0 0 2 none none .default private_file).1 = .Err .PermissionDenied ∧
      ¬ TimesGuarded private_file 2 5 0 0 none none .default ∧
      (dbfs_common_utimens 7 7 1 none none .default private_file).1 = .Ok root_attr ∧
      ¬ TimesGuarded private_file 1 0 7 7 none none .default := by
  have hroot : (dbfs_common_utimens 0 0 2 none none .default private_file).1 =
      .Err .PermissionDenied := by decide +kernel
  have hstranger : (dbfs_common_utimens 7 7 1 none none .default private_file).1 =
      .Ok root_attr := by decide +kernel
  refine ⟨by decide +kernel, by decide +kernel, hroot, fun h => ?_, hstranger, fun h => ?_⟩
  · obtain ⟨a, s', hok⟩ := h.allowed (.inr rfl)
    rw [hok] at hroot
    cases hroot
  · obtain ⟨e, s', herr⟩ := h.refused (by decide)
    rw [herr] at hstranger
    cases hstranger

/-- The file of user 5 is guarded against another user. -/
theorem stranger_denied : TimesGuarded private_file 2 5 7 7 none none .default :=
  (times_guarded_iff private_file 2 5 7 7 none none .default (by decide +kernel)).mpr
    ⟨private_attr, private_attr_shown, .inr ⟨by decide, .inl (by decide)⟩⟩

end sample

end times

/-! ## Setting and removing extended attributes -/

/-- The keys that are guarded by the permission bits of the inode. -/
def ByMode (key : String) : Prop :=
  parse_xattr_namespace key = .Ok .User ∨ key = "system.posix_acl_access"

/-- The authority that a change to an attribute needs: write permission on the inode for the
`user.` keys and the access list, and root for every other key. -/
def XattrAuthority (key : String) (r_uid r_gid uid gid : UInt32) (mode : UInt16) : Prop :=
  (ByMode key → checkout_access uid gid mode r_uid r_gid ACCESS_W_OK = true) ∧
    (¬ ByMode key → r_uid = 0)

theorem permit_ok {c : Bool} : permit c = .Ok () ↔ c = true := by
  unfold permit
  split_ifs with h <;> simp [h]

/-- The check, namespace by namespace. -/
theorem xattr_access_check_ok {key : String} {mask : UInt16} {r_uid r_gid uid gid : UInt32}
    {mode : UInt16} :
    xattr_access_check key mask r_uid r_gid uid gid mode = .Ok () ↔
      ∃ ns, parse_xattr_namespace key = .Ok ns ∧
        (ByMode key → checkout_access uid gid mode r_uid r_gid mask = true) ∧
        (¬ ByMode key → (ns = .Security ∧ mask = ACCESS_R_OK) ∨ r_uid = 0) := by
  have hacl : parse_xattr_namespace "system.posix_acl_access" = .Ok .System := by decide
  unfold xattr_access_check
  rcases hns : parse_xattr_namespace key with ns | e | _
  · have hkey : ns ≠ .System → key ≠ "system.posix_acl_access" := by
      rintro hne rfl
      rw [hacl] at hns
      cases hns
      exact hne rfl
    simp only [DbfsResult.ok_bind]
    cases ns with
    | Security =>
      have hby : ¬ ByMode key := by simp [ByMode, hns, hkey]
      simp [permit_ok, hby]
    | System =>
      by_cases he : key = "system.posix_acl_access"
      · have hby : ByMode key := .inr he
        simp [permit_ok, hby, if_pos he]
      · have hby : ¬ ByMode key := by simp [ByMode, hns, he]
        simp [permit_ok, hby, he]
    | Trusted =>
      have hby : ¬ ByMode key := by simp [ByMode, hns, hkey]
      simp [permit_ok, hby]
    | User =>
      have hby : ByMode key := .inl hns
      simp [permit_ok, hby]
  · simp
  · simp

/-- The check passes on the stored owner, group and mode of an inode. -/
def Db.MayXattr (db : Db) (ino : UInt64) (key : String) (mask : UInt16) (r_uid r_gid : UInt32) :
    Prop := xattr_check_tx r_uid r_gid ino key mask db = .Ok ((), db)

theorem mayXattr_iff {db : Db} {ino : UInt64} {key : String} {mask : UInt16}
    {r_uid r_gid uid gid : UInt32} {mode : UInt16} (huid : db.u32 ino .uid = some uid)
    (hgid : db.u32 ino .gid = some gid) (hmode : db.u16 ino .mode = some mode) :
    db.MayXattr ino key mask r_uid r_gid ↔
      xattr_access_check key mask r_uid r_gid uid gid (mode &&& 0o777) = .Ok () := by
  unfold Db.MayXattr xattr_check_tx
  rw [bind_of_ok (get_bucket_ok (u := ()).mpr ⟨Db.has_of_u32 huid, rfl⟩),
    bind_of_ok (read_u32_ok.mpr ⟨huid, rfl⟩), bind_of_ok (read_u32_ok.mpr ⟨hgid, rfl⟩),
    bind_of_ok (read_u16_ok.mpr ⟨hmode, rfl⟩), check_ok]
  simp

/-- Whoever may set an attribute may remove it, and has the authority for the change. -/
def SetNeedsRemove (db : Db) (ino : UInt64) (key : String) (r_uid r_gid uid gid : UInt32)
    (mode : UInt16) : Prop :=
  db.MayXattr ino key ACCESS_R_OK r_uid r_gid →
    db.MayXattr ino key ACCESS_W_OK r_uid r_gid ∧
      XattrAuthority key r_uid r_gid uid gid (mode &&& 0o777)

/-- Setting is checked as reading: it needs the authority of a removal unless the key is one of
`security.`, or is guarded by a mode that lets the requester read and not write. -/
theorem set_needs_remove_iff (db : Db) (ino : UInt64) (key : String) (r_uid r_gid uid gid : UInt32)
    (mode : UInt16) (huid : db.u32 ino .uid = some uid) (hgid : db.u32 ino .gid = some gid)
    (hmode : db.u16 ino .mode = some mode) :
    SetNeedsRemove db ino key r_uid r_gid uid gid mode ↔
      (parse_xattr_namespace key = .Ok .Security → r_uid = 0) ∧
      (ByMode key → checkout_access uid gid (mode &&& 0o777) r_uid r_gid ACCESS_R_OK = true →
        checkout_access uid gid (mode &&& 0o777) r_uid r_gid ACCESS_W_OK = true) := by
  have hacl : parse_xattr_namespace "system.posix_acl_access" = .Ok .System := by decide
  have hmask : ACCESS_W_OK ≠ ACCESS_R_OK := by decide
  unfold SetNeedsRemove XattrAuthority
  rw [mayXattr_iff huid hgid hmode, mayXattr_iff huid hgid hmode, xattr_access_check_ok,
    xattr_access_check_ok]
  by_cases hby : ByMode key
  · have hns : ∃ ns, parse_xattr_namespace key = .Ok ns ∧ ns ≠ .Security := by
      rcases hby with h | rfl
      · exact ⟨.User, h, by decide⟩
      · exact ⟨.System, hacl, by decide⟩
    obtain ⟨ns, hns, hne⟩ := hns
    simp only [hns, hby, DbfsResult.Ok.injEq, hne, forall_const, not_true_eq_false, false_implies,
      and_true, exists_eq_left', true_and, and_self]
  · simp only [hby, not_false_eq_true, forall_const, false_implies, true_and, and_true, hmask,
      and_false, false_or]
    constructor
    · intro h hsec
      exact (h ⟨.Security, hsec, .inl rfl⟩).2
    · rintro h ⟨ns, hns, rfl | hroot⟩
      · exact ⟨⟨.Security, hns, h hns⟩, h hns⟩
      · exact ⟨⟨ns, hns, hroot⟩, hroot⟩

section sample

/-- User 7 may set a `security.` key of the file of user 5, and may not remove it. -/
theorem stranger_sets_a_security_key :
    private_file.db.MayXattr 2 "security.selinux" ACCESS_R_OK 7 7 ∧
      (dbfs_common_setxattr 7 7 2 "security.selinux" [1] .default private_file).1 = .Ok () ∧
      ¬ private_file.db.MayXattr 2 "security.selinux" ACCESS_W_OK 7 7 ∧
      ¬ XattrAuthority "security.selinux" 7 7 5 5 (0o100600 &&& 0o777) := by
  refine ⟨by unfold Db.MayXattr; decide +kernel, by decide +kernel,
    by unfold Db.MayXattr; decide +kernel, fun h => ?_⟩
  have hby : ¬ ByMode "security.selinux" := by
    unfold ByMode
    decide
  exact absurd (h.2 hby) (by decide)

theorem owner_sets_a_user_key : SetNeedsRemove private_file.db 2 "user.a" 5 5 5 5 0o100600 :=
  (set_needs_remove_iff private_file.db 2 "user.a" 5 5 5 5 0o100600 (by decide +kernel)
    (by decide +kernel) (by decide +kernel)).mpr
    ⟨fun h => absurd h (by decide), fun _ _ => by decide⟩

end sample

end dbfs2
